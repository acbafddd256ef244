import DemoCode.Lib.Endian

/-! The frames of the WebSocket head protocol: the two-byte head of `ws_proto.hpp` with its
bit-fields, the three forms of the length, the mask, and the bytes of a whole frame. -/

namespace DemoCode.WebSocket

/-- `EN_OP_CODE`, with the values a cast from four bits can have besides the named ones. -/
inductive OpCode where
  | frame
  | text
  | binary
  | close
  | ping
  | pong
  | unknown (code : Fin 16)
  deriving DecidableEq, Repr

/-- The cast from the bit-field to `EN_OP_CODE`. -/
def OpCode.ofCode (c : Fin 16) : OpCode :=
  if c = 0 then .frame
  else if c = 1 then .text
  else if c = 2 then .binary
  else if c = 8 then .close
  else if c = 9 then .ping
  else if c = 10 then .pong
  else .unknown c

def OpCode.code : OpCode → Fin 16
  | .frame => 0
  | .text => 1
  | .binary => 2
  | .close => 8
  | .ping => 9
  | .pong => 10
  | .unknown c => c

/-- `CheckOpCode`. -/
def checkOpCode (opCode : OpCode) : Bool :=
  if opCode = .close ∨ ¬(opCode = .frame ∨ opCode = .text ∨ opCode = .binary ∨ opCode = .ping ∨
      opCode = .pong) then
    false
  else
    true

@[simp] theorem OpCode.code_ofCode (c : Fin 16) : (OpCode.ofCode c).code = c := by
  revert c; decide

theorem OpCode.ofCode_code {opCode : OpCode} (h : checkOpCode opCode = true) :
    OpCode.ofCode opCode.code = opCode := by
  cases opCode <;> first | rfl | simp [checkOpCode] at h

/-! ### The head -/

-- what the literals of the bit-fields rest on
instance neZero_threeBits : NeZero 8 := ⟨by decide⟩

instance neZero_sevenBits : NeZero 128 := ⟨by decide⟩

/-- `ST_WebScoketHead`. -/
structure Head where
  opCode : Fin 16
  rsv : Fin 8
  fin : Bool
  payloadLen : Fin 128
  mask : Bool
  deriving DecidableEq

/-- The bit-fields of the two bytes, the first of each byte in its low bits. -/
def Head.ofBytes (b0 b1 : UInt8) : Head where
  opCode := ⟨b0.toNat % 16, by omega⟩
  rsv := ⟨b0.toNat / 16 % 8, by omega⟩
  fin := decide (128 ≤ b0.toNat)
  payloadLen := ⟨b1.toNat % 128, by omega⟩
  mask := decide (128 ≤ b1.toNat)

def Head.byte0 (h : Head) : UInt8 :=
  UInt8.ofNat (h.opCode + 16 * h.rsv + if h.fin then 128 else 0)

def Head.byte1 (h : Head) : UInt8 :=
  UInt8.ofNat (h.payloadLen + if h.mask then 128 else 0)

theorem Head.toNat_byte0 (h : Head) :
    h.byte0.toNat = h.opCode + 16 * h.rsv + if h.fin then 128 else 0 := by
  have := h.opCode.isLt
  have := h.rsv.isLt
  apply UInt8.toNat_ofNat_of_lt'
  simp only [UInt8.size]
  split <;> omega

theorem Head.toNat_byte1 (h : Head) :
    h.byte1.toNat = h.payloadLen + if h.mask then 128 else 0 := by
  have := h.payloadLen.isLt
  apply UInt8.toNat_ofNat_of_lt'
  simp only [UInt8.size]
  split <;> omega

@[simp] theorem Head.ofBytes_bytes (h : Head) : Head.ofBytes h.byte0 h.byte1 = h := by
  obtain ⟨op, rsv, fin, len, mask⟩ := h
  have := op.isLt
  have := rsv.isLt
  have := len.isLt
  simp only [Head.ofBytes, Head.toNat_byte0, Head.toNat_byte1, Head.mk.injEq, Fin.ext_iff]
  cases fin <;> cases mask <;> simp <;> omega

@[simp] theorem Head.byte0_ofBytes (b0 b1 : UInt8) : (Head.ofBytes b0 b1).byte0 = b0 := by
  have := b0.toNat_lt
  apply UInt8.toNat_inj.mp
  simp only [Head.toNat_byte0, Head.ofBytes, decide_eq_true_eq]
  split <;> omega

@[simp] theorem Head.byte1_ofBytes (b0 b1 : UInt8) : (Head.ofBytes b0 b1).byte1 = b1 := by
  have := b1.toNat_lt
  apply UInt8.toNat_inj.mp
  simp only [Head.toNat_byte1, Head.ofBytes, decide_eq_true_eq]
  split <;> omega

/-! ### The mask -/

/-- The bytes of a mask. -/
abbrev Mask := {key : List UInt8 // key.length = 4}

/-- `data[i] ^= cMask[i % maskLen]`, for every `i`. -/
def xorMask (cMask data : List UInt8) : List UInt8 :=
  data.mapIdx fun i b => b ^^^ cMask.getD (i % 4) 0

@[simp] theorem length_xorMask (cMask data : List UInt8) :
    (xorMask cMask data).length = data.length := by simp [xorMask]

/-- Masking twice with the same mask is no change. -/
@[simp] theorem xorMask_xorMask (cMask data : List UInt8) :
    xorMask cMask (xorMask cMask data) = data := by
  apply List.ext_getElem
  · simp
  · intro i _ _
    simp only [xorMask, List.getElem_mapIdx, UInt8.xor_assoc, UInt8.xor_self, UInt8.xor_zero]

/-- A payload under an optional mask. -/
def applyMask : Option Mask → List UInt8 → List UInt8
  | none, data => data
  | some key, data => xorMask key.val data

@[simp] theorem length_applyMask (mask : Option Mask) (data : List UInt8) :
    (applyMask mask data).length = data.length := by cases mask <;> simp [applyMask]

@[simp] theorem applyMask_applyMask (mask : Option Mask) (data : List UInt8) :
    applyMask mask (applyMask mask data) = data := by cases mask <;> simp [applyMask]

/-! ### Whole frames -/

/-- How a frame states its length: in the head, or in the two or eight bytes behind it. -/
inductive LenForm where
  | head
  | two
  | eight
  deriving DecidableEq, Repr

/-- The lengths that a form can state. -/
def LenForm.Fits : LenForm → Nat → Prop
  | .head, n => n < 126
  | .two, n => n < 2 ^ 16
  | .eight, n => n < 2 ^ 64

instance : (form : LenForm) → (n : Nat) → Decidable (form.Fits n)
  | .head, n => inferInstanceAs (Decidable (n < 126))
  | .two, n => inferInstanceAs (Decidable (n < 2 ^ 16))
  | .eight, n => inferInstanceAs (Decidable (n < 2 ^ 64))

/-- The `payloadLen` of the head. -/
def LenForm.payloadLen : (form : LenForm) → (n : Nat) → form.Fits n → Fin 128
  | .head, n, h => ⟨n, Nat.lt_trans h (by decide)⟩
  | .two, _, _ => 126
  | .eight, _, _ => 127

/-- The bytes of the length behind the head. -/
def LenForm.bytes : LenForm → Nat → List UInt8
  | .head, _ => []
  | .two, n => Endian.big 2 n
  | .eight, n => Endian.big 8 n

/-- A frame, its payload without the mask. -/
structure Frame where
  fin : Bool
  rsv : Fin 8
  opCode : OpCode
  form : LenForm
  mask : Option Mask
  payload : List UInt8
  fits : form.Fits payload.length

/-- The head of a frame. -/
def Frame.head (f : Frame) : Head where
  opCode := f.opCode.code
  rsv := f.rsv
  fin := f.fin
  payloadLen := f.form.payloadLen f.payload.length f.fits
  mask := f.mask.isSome

/-- The bytes of the mask in a frame. -/
def maskBytes : Option Mask → List UInt8
  | none => []
  | some key => key.val

@[simp] theorem length_maskBytes (mask : Option Mask) :
    (maskBytes mask).length = if mask.isSome then 4 else 0 := by
  cases mask with
  | none => rfl
  | some key => simp [maskBytes, key.property]

/-- The bytes of a frame. -/
def Frame.encode (f : Frame) : List UInt8 :=
  f.head.byte0 :: f.head.byte1 :: (f.form.bytes f.payload.length ++ (maskBytes f.mask ++
    applyMask f.mask f.payload))

/-- The frames that a parser with the given limit lets through. -/
def Frame.Accepted (defaultDataMaxSize : UInt32) (f : Frame) : Prop :=
  checkOpCode f.opCode = true ∧ f.payload.length ≤ defaultDataMaxSize.toNat

instance (defaultDataMaxSize : UInt32) (f : Frame) : Decidable (f.Accepted defaultDataMaxSize) :=
  inferInstanceAs (Decidable (_ ∧ _))

end DemoCode.WebSocket
