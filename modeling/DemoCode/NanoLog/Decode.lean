import DemoCode.NanoLog.LogLine

/-! A log line prints what was streamed into it: the buffer holds the bytes of the header and of each
argument, through all of its growth, and `Decode` reads the arguments back one by one. -/

namespace DemoCode.NanoLog

open Endian

/-! ### The buffer -/

theorem writeAt_append (front rest bytes : List UInt8) (h : bytes.length ≤ rest.length) :
    writeAt (front ++ rest) front.length bytes =
      some (front ++ bytes ++ rest.drop bytes.length) := by
  unfold writeAt
  rw [if_pos (by rw [List.length_append]; omega), List.take_left, ← List.drop_drop, List.drop_left]

theorem readAt_append {front rest : List UInt8} {size : Nat} (bits : BitVec (8 * size)) :
    readAt (front ++ toBytes bits ++ rest) front.length size = some bits := by
  have hLength : (toBytes bits).length = size := length_little size _
  have hRange : bits.toNat < 256 ^ size := by
    have hLt := bits.isLt
    rwa [Nat.pow_mul] at hLt
  unfold readAt
  rw [if_pos (by simp only [List.length_append, hLength]; omega), List.append_assoc, List.drop_left,
    List.take_left' hLength, ofBytes, toBytes, ofLittle_little hRange, BitVec.ofNat_toNat,
    BitVec.setWidth_eq]

/-- The buffer holds some bytes, and is of the size that is noted. -/
structure Holds (l : LogLine) (bytes : List UInt8) : Prop where
  used : l.usedByted = bytes.length
  size : l.buffer.length = l.bufferSize
  buffer : bytes <+: l.buffer

namespace LogLine

/-- A write to the current buffer, as a write of bytes. -/
theorem put_eq {l : LogLine} {off : Nat} {bytes buf : List UInt8}
    (h : writeAt l.buffer off bytes = some buf) :
    ∃ l', l.put off bytes = some l' ∧ l'.buffer = buf ∧ l'.usedByted = l.usedByted ∧
      l'.bufferSize = l.bufferSize := by
  cases hHead : l.headBuffer with
  | none =>
    have hStack : l.buffer = l.stackBuffer := by rw [LogLine.buffer, hHead, Option.getD_none]
    rw [hStack] at h
    refine ⟨{ l with stackBuffer := buf }, ?_, ?_, rfl, rfl⟩
    · simp only [put, hHead, h, Option.map_some]
    · rw [LogLine.buffer, hHead, Option.getD_none]
  | some head =>
    have hCurrent : l.buffer = head := by rw [LogLine.buffer, hHead, Option.getD_some]
    rw [hCurrent] at h
    refine ⟨{ l with headBuffer := some buf }, ?_, rfl, rfl, rfl⟩
    simp only [put, hHead, h, Option.map_some]

/-- Bytes put behind those that the buffer holds. -/
theorem put_holds {l : LogLine} {held : List UInt8} (bytes : List UInt8) (hSize : l.buffer.length = l.bufferSize)
    (hHeld : held <+: l.buffer) (hFits : held.length + bytes.length ≤ l.bufferSize) :
    ∃ l', l.put held.length bytes = some l' ∧ l'.buffer.length = l'.bufferSize ∧
      held ++ bytes <+: l'.buffer ∧ l'.usedByted = l.usedByted ∧ l'.bufferSize = l.bufferSize := by
  obtain ⟨rest, hRest⟩ := hHeld
  have hLength : held.length + rest.length = l.bufferSize := by
    rw [← hSize, ← hRest, List.length_append]
  have hWrite := writeAt_append held rest bytes (by omega)
  rw [hRest] at hWrite
  obtain ⟨l', hPut, hBuffer, hUsed, hNoted⟩ := put_eq hWrite
  refine ⟨l', hPut, ?_, ?_, hUsed, hNoted⟩
  · rw [hBuffer, hNoted, ← hLength]
    simp only [List.length_append, List.length_drop]
    omega
  · rw [hBuffer]
    exact List.prefix_append _ _

theorem encode0_holds {l : LogLine} {held : List UInt8} (h : Holds l held) (args : List (List UInt8))
    (hFits : held.length + args.flatten.length ≤ l.bufferSize) :
    ∃ l', l.encode0 args = some l' ∧ Holds l' (held ++ args.flatten) := by
  induction args generalizing l held with
  | nil => exact ⟨l, rfl, by simpa using h⟩
  | cons bytes args ih =>
    rw [List.flatten_cons, List.length_append] at hFits
    obtain ⟨l', hPut, hSize, hHeld, hUsed, hNoted⟩ :=
      put_holds bytes h.size h.buffer (by omega)
    have hNext : Holds { l' with usedByted := l'.usedByted + bytes.length } (held ++ bytes) := by
      refine ⟨?_, hSize, hHeld⟩
      rw [List.length_append, ← h.used, ← hUsed]
    obtain ⟨l'', hRest, hAll⟩ := ih hNext (by
      rw [List.length_append]
      change _ ≤ l'.bufferSize
      omega)
    refine ⟨l'', ?_, ?_⟩
    · rw [encode0, h.used, hPut]
      exact hRest
    · rwa [List.flatten_cons, ← List.append_assoc]

/-- `ResizeBuffer` makes room and keeps what the buffer holds. -/
theorem resizeBuffer_holds (fresh : Fresh) {l : LogLine} {held : List UInt8} (h : Holds l held)
    (size : Nat) : ∃ l', l.resizeBuffer fresh size = some l' ∧ Holds l' held ∧
      held.length + size ≤ l'.bufferSize := by
  obtain ⟨rest, hRest⟩ := h.buffer
  -- the used bytes go to the front of the new buffer, whatever was there
  have hCopy : ∀ {old : List UInt8} (new : List UInt8), held ++ rest = old → held.length ≤ new.length →
      writeAt new 0 (old.take l.usedByted) = some (held ++ new.drop held.length) := by
    intro old new hOld hLe
    have hWrite := writeAt_append [] new held hLe
    rw [← hOld, h.used, List.take_left]
    simpa using hWrite
  unfold resizeBuffer
  dsimp only
  split
  · rename_i hFits
    exact ⟨l, rfl, h, h.used ▸ hFits⟩
  · rename_i hFull
    have hUsed := h.used
    cases hHead : l.headBuffer with
    | none =>
      have hOld : held ++ rest = l.stackBuffer := by
        rw [hRest, LogLine.buffer, hHead, Option.getD_none]
      let n := max defaultStackBufferSize (l.usedByted + size)
      have hWrite := hCopy (fresh n).1 hOld (by rw [(fresh n).2]; omega)
      refine ⟨{ l with bufferSize := n, headBuffer := some (held ++ (fresh n).1.drop held.length) },
        ?_, ⟨h.used, ?_, List.prefix_append _ _⟩, ?_⟩
      · simp only [n] at hWrite
        simp only [hWrite, Option.bind_eq_bind, Option.bind_some, n]
      · change (held ++ (fresh n).1.drop held.length).length = n
        rw [List.length_append, List.length_drop, (fresh n).2]
        omega
      · change _ ≤ n
        omega
    | some head =>
      have hOld : held ++ rest = head := by rw [hRest, LogLine.buffer, hHead, Option.getD_some]
      let n := max (l.bufferSize * 2) (l.usedByted + size)
      have hWrite := hCopy (List.replicate n 0) hOld (by rw [List.length_replicate]; omega)
      refine ⟨{ l with bufferSize := n, headBuffer := some (held ++ (List.replicate n 0).drop held.length) },
        ?_, ⟨h.used, ?_, List.prefix_append _ _⟩, ?_⟩
      · simp only [n] at hWrite
        simp only [hWrite, Option.bind_eq_bind, Option.bind_some, n]
      · change (held ++ (List.replicate n (0 : UInt8)).drop held.length).length = n
        rw [List.length_append, List.length_drop, List.length_replicate]
        omega
      · change _ ≤ n
        omega

end LogLine

/-! ### The bytes of an argument -/

def SupportedType.tag (ty : SupportedType) : UInt8 := UInt8.ofNat (ty.tupleIndex supportedTypes)

/-- `Decode` finds the type that `operator<<` put the index of. -/
theorem SupportedType.tag_toNat (ty : SupportedType) : supportedTypes[ty.tag.toNat]? = some ty := by
  cases ty <;> rfl

def Arg.encoded : Arg → List UInt8
  | .number ty _ bits => ty.tag :: toBytes bits
  | .str none => []
  | .str (some s) => if s.bytes.length = 0 then [] else SupportedType.charPtr.tag :: (s.bytes ++ [0])

/-- What an argument prints. -/
def Stream.arg (os : Stream) : Arg → List UInt8
  | .number ty _ bits => os.number ty bits
  | .str none => []
  | .str (some s) => s.bytes

namespace LogLine

theorem push_holds (fresh : Fresh) {l : LogLine} {held : List UInt8} (h : Holds l held) (arg : Arg) :
    ∃ l', l.push fresh arg = some l' ∧ Holds l' (held ++ arg.encoded) := by
  cases arg with
  | number ty isArithmetic bits =>
    obtain ⟨l₁, hResize, hHolds, hRoom⟩ := resizeBuffer_holds fresh h (ty.size + 1)
    have hLength : (toBytes bits).length = ty.size := length_little ty.size _
    obtain ⟨l₂, hEncode, hAll⟩ := encode0_holds hHolds [[ty.tag], toBytes bits] (by
      simp only [List.flatten_cons, List.flatten_nil, List.length_append, List.length_cons,
        List.length_nil, hLength]
      omega)
    refine ⟨l₂, ?_, by simpa [Arg.encoded] using hAll⟩
    simp only [push, encode, hResize, Option.bind_eq_bind, Option.bind_some]
    exact hEncode
  | str arg =>
    cases arg with
    | none => exact ⟨l, rfl, by simpa [Arg.encoded] using h⟩
    | some s =>
      by_cases hEmpty : s.bytes.length = 0
      · refine ⟨l, ?_, by simpa [Arg.encoded, hEmpty] using h⟩
        simp only [push, encodeStr, if_pos hEmpty]
      · obtain ⟨l₁, hResize, hHolds, hRoom⟩ :=
          resizeBuffer_holds fresh h (1 + s.bytes.length + 1)
        obtain ⟨l₂, hTag, hSize₂, hHeld₂, hUsed₂, hNoted₂⟩ :=
          put_holds [SupportedType.charPtr.tag] hHolds.size hHolds.buffer (by
            rw [List.length_singleton]
            omega)
        obtain ⟨l₃, hText, hSize₃, hHeld₃, hUsed₃, hNoted₃⟩ :=
          put_holds (s.bytes ++ [0]) hSize₂ hHeld₂ (by
            simp only [List.length_append, List.length_singleton]
            omega)
        have hUsed : l₃.usedByted = held.length := by rw [hUsed₃, hUsed₂, hHolds.used]
        refine ⟨{ l₃ with usedByted := l₃.usedByted + (1 + s.bytes.length + 1) }, ?_, ?_, hSize₃, ?_⟩
        · have hPlace : l₂.usedByted + 1 = (held ++ [SupportedType.charPtr.tag]).length := by
            rw [hUsed₂, hHolds.used, List.length_append, List.length_singleton]
          rw [← hPlace] at hText
          rw [← hHolds.used] at hTag
          simp only [push, encodeStr, if_neg hEmpty, hResize, Option.bind_eq_bind, Option.bind_some]
          rw [show UInt8.ofNat (SupportedType.charPtr.tupleIndex supportedTypes) =
            SupportedType.charPtr.tag from rfl, hTag, Option.bind_some, hText, Option.bind_some]
        · simp only [Arg.encoded, if_neg hEmpty, hUsed, List.length_append, List.length_cons,
            List.length_nil]
          omega
        · change _ <+: l₃.buffer
          simpa [Arg.encoded, hEmpty] using hHeld₃

theorem foldlM_push_holds (fresh : Fresh) {l : LogLine} {held : List UInt8} (h : Holds l held)
    (args : List Arg) : ∃ l', args.foldlM (LogLine.push fresh) l = some l' ∧
      Holds l' (held ++ args.flatMap Arg.encoded) := by
  induction args generalizing l held with
  | nil => exact ⟨l, rfl, by simpa using h⟩
  | cons arg args ih =>
    obtain ⟨l₁, hPush, hHolds⟩ := push_holds fresh h arg
    obtain ⟨l₂, hRest, hAll⟩ := ih hHolds
    refine ⟨l₂, ?_, ?_⟩
    · rw [List.foldlM_cons, hPush]
      exact hRest
    · rwa [List.flatMap_cons, ← List.append_assoc]

end LogLine

/-- The bytes that the constructor puts in front. -/
def Header.encoded (h : Header) : List UInt8 :=
  toBytes h.timestamp ++ toBytes h.processId ++ toBytes h.threadId ++ toBytes h.file ++
    toBytes h.func ++ toBytes h.line ++ toBytes h.level

theorem length_toBytes {size : Nat} (bits : BitVec (8 * size)) : (toBytes bits).length = size :=
  length_little size _

theorem Header.length_encoded (h : Header) : h.encoded.length = 45 := by
  simp only [encoded, List.length_append, length_toBytes]

theorem new_holds (stack : { bytes : List UInt8 // bytes.length = stackSize }) (h : Header) :
    ∃ l, LogLine.new stack h = some l ∧ Holds l h.encoded := by
  have hEmpty : Holds { bufferSize := stackSize, usedByted := 0, stackBuffer := stack } [] :=
    ⟨rfl, stack.2, List.nil_prefix⟩
  obtain ⟨l, hNew, hHolds⟩ := LogLine.encode0_holds hEmpty
    [toBytes h.timestamp, toBytes h.processId, toBytes h.threadId, toBytes h.file, toBytes h.func,
      toBytes h.line, toBytes h.level] (by
    simp only [List.flatten_cons, List.flatten_nil, List.length_append, length_toBytes,
      List.length_nil]
    decide)
  refine ⟨l, hNew, ?_⟩
  simpa [Header.encoded] using hHolds

/-! ### Reading back -/

theorem cString_append {s : List UInt8} (h : 0 ∉ s) (rest : List UInt8) :
    cString (s ++ 0 :: rest) = some s := by
  induction s with
  | nil => rfl
  | cons b s ih =>
    rw [List.mem_cons, not_or] at h
    rw [List.cons_append, cString, if_pos (Ne.symm h.1), ih h.2]
    rfl

variable (os : Stream) (front rest : List UInt8)

theorem decode0_arithmetic {ty : SupportedType} (h : ty.isArithmetic = true) (buf : List UInt8)
    (start : Nat) : decode0 os buf start ty =
      (readAt buf start ty.size).bind fun arg => some (os.number ty arg, start + ty.size) := by
  cases ty <;> first | rfl | cases h

theorem decode0_number {ty : SupportedType} (h : ty.isArithmetic = true)
    (bits : BitVec (8 * ty.size)) :
    decode0 os (front ++ toBytes bits ++ rest) front.length ty =
      some (os.number ty bits, front.length + ty.size) := by
  rw [decode0_arithmetic os h, readAt_append, Option.bind_some]

theorem decode0_str (s : CString) :
    decode0 os (front ++ (s.bytes ++ 0 :: rest)) front.length .charPtr =
      some (s.bytes, front.length + s.bytes.length + 1) := by
  simp only [decode0, List.drop_left, cString_append s.noNul, Option.bind_eq_bind, Option.bind_some]

/-- `Decode` prints an argument that is not empty and goes on behind it. -/
theorem decodePass_arg {arg : Arg} (hSome : arg.encoded ≠ []) (stop : Nat)
    (hStop : front.length + arg.encoded.length ≤ stop) :
    decodePass os (front ++ arg.encoded ++ rest) stop front.length =
      .again (os.arg arg) (front ++ arg.encoded).length := by
  have hPos := List.length_pos_iff.mpr hSome
  have hGo : front.length ≠ stop := by omega
  cases arg with
  | number ty isArithmetic bits =>
    have hTag : (front ++ (Arg.number ty isArithmetic bits).encoded ++ rest)[front.length]? =
        some ty.tag := by simp [Arg.encoded]
    have hDecode := decode0_number os (front ++ [ty.tag]) rest isArithmetic bits
    have hSplit : front ++ [ty.tag] ++ toBytes bits ++ rest =
        front ++ (Arg.number ty isArithmetic bits).encoded ++ rest := by simp [Arg.encoded]
    rw [hSplit, List.length_append, List.length_singleton] at hDecode
    have hLength : (front ++ (Arg.number ty isArithmetic bits).encoded).length =
        front.length + 1 + ty.size := by
      simp only [Arg.encoded, List.length_append, List.length_cons, length_toBytes]
      omega
    rw [hLength, decodePass, if_neg hGo]
    simp only [hTag, ty.tag_toNat, hDecode, Stream.arg]
  | str arg =>
    cases arg with
    | none => exact absurd rfl hSome
    | some s =>
      have hNonempty : ¬ s.bytes.length = 0 := fun hNil => hSome (by rw [Arg.encoded, if_pos hNil])
      have hEncoded : (Arg.str (some s)).encoded = SupportedType.charPtr.tag :: (s.bytes ++ [0]) := by
        rw [Arg.encoded, if_neg hNonempty]
      have hTag : (front ++ (Arg.str (some s)).encoded ++ rest)[front.length]? =
          some SupportedType.charPtr.tag := by simp [hEncoded]
      have hDecode := decode0_str os (front ++ [SupportedType.charPtr.tag]) rest s
      have hSplit : front ++ [SupportedType.charPtr.tag] ++ (s.bytes ++ 0 :: rest) =
          front ++ (Arg.str (some s)).encoded ++ rest := by simp [hEncoded]
      rw [hSplit, List.length_append, List.length_singleton] at hDecode
      have hLength : (front ++ (Arg.str (some s)).encoded).length =
          front.length + 1 + s.bytes.length + 1 := by
        simp only [hEncoded, List.length_append, List.length_cons, List.length_nil]
        omega
      rw [hLength, decodePass, if_neg hGo]
      simp only [hTag, SupportedType.tag_toNat, hDecode, Stream.arg]

/-- `Decode` prints the arguments one by one and ends where they end. -/
theorem exec_decode (args : List Arg) :
    (decodeBody os (front ++ args.flatMap Arg.encoded ++ rest)
      (front.length + (args.flatMap Arg.encoded).length)).exec front.length =
        (args.flatMap os.arg, some (front.length + (args.flatMap Arg.encoded).length)) := by
  induction args generalizing front with
  | nil =>
    apply Loop.Body.exec_leave
    exact if_pos rfl
  | cons arg args ih =>
    by_cases hEmpty : arg.encoded = []
    · -- a null or empty string is neither stored nor printed
      have hNothing : os.arg arg = [] := by
        cases arg with
        | number ty isArithmetic bits => cases hEmpty
        | str arg =>
          cases arg with
          | none => rfl
          | some s =>
            by_cases hNil : s.bytes.length = 0
            · exact List.length_eq_zero_iff.mp hNil
            · rw [Arg.encoded, if_neg hNil] at hEmpty
              cases hEmpty
      simp only [List.flatMap_cons, hEmpty, hNothing, List.nil_append]
      exact ih front
    · have hRest := ih (front ++ arg.encoded)
      have hPass := decodePass_arg os front (args.flatMap Arg.encoded ++ rest) hEmpty
        ((front ++ arg.encoded).length + (args.flatMap Arg.encoded).length) (by
          rw [List.length_append]
          omega)
      simp only [List.append_assoc] at hRest hPass
      have hEnd : front.length + (List.flatMap Arg.encoded (arg :: args)).length =
          (front ++ arg.encoded).length + (args.flatMap Arg.encoded).length := by
        simp only [List.flatMap_cons, List.length_append]
        omega
      rw [hEnd]
      simp only [List.flatMap_cons, List.append_assoc]
      rw [Loop.Body.exec_again _ hPass, hRest]

/-- What the header prints, from the values that the constructor was given. -/
def Stream.header (h : Header) : List UInt8 :=
  os.timestamp h.timestamp ++ ascii "[" ++ ascii (levelToString h.level) ++ ascii "][" ++
    os.number .uint64 h.processId ++ ascii "][" ++ os.threadId h.threadId ++ ascii "][" ++
    os.text h.file ++ ascii ":" ++ os.text h.func ++ ascii ":" ++ os.number .uint32 h.line ++ ascii "]"

theorem readAt_of_split {buf : List UInt8} {off size : Nat} {bits : BitVec (8 * size)}
    (h : buf = front ++ (toBytes bits ++ rest)) (hOff : front.length = off) :
    readAt buf off size = some bits := by
  rw [h, ← List.append_assoc, ← hOff]
  exact readAt_append bits

theorem stringify_header {l : LogLine} {h : Header} (hBuffer : l.buffer = h.encoded ++ rest) :
    l.stringify os = ((decodeBody os l.buffer l.usedByted).exec 45).2.bind fun last =>
      some (os.header h ++ ((decodeBody os l.buffer l.usedByted).exec 45).1 ++ ascii "\n", last) := by
  simp only [Header.encoded, List.append_assoc] at hBuffer
  have hTimestamp : readAt l.buffer 0 8 = some h.timestamp := readAt_of_split [] _ hBuffer rfl
  have hProcess : readAt l.buffer 8 8 = some h.processId :=
    readAt_of_split (toBytes h.timestamp) _ hBuffer (length_toBytes _)
  have hThread : readAt l.buffer 16 8 = some h.threadId :=
    readAt_of_split (toBytes h.timestamp ++ toBytes h.processId) _
      (by simpa only [List.append_assoc] using hBuffer) (by simp only [List.length_append, length_toBytes])
  have hFile : readAt l.buffer 24 8 = some h.file :=
    readAt_of_split (toBytes h.timestamp ++ toBytes h.processId ++ toBytes h.threadId) _
      (by simpa only [List.append_assoc] using hBuffer) (by simp only [List.length_append, length_toBytes])
  have hFunc : readAt l.buffer 32 8 = some h.func :=
    readAt_of_split (toBytes h.timestamp ++ toBytes h.processId ++ toBytes h.threadId ++
        toBytes h.file) _
      (by simpa only [List.append_assoc] using hBuffer) (by simp only [List.length_append, length_toBytes])
  have hLine : readAt l.buffer 40 4 = some h.line :=
    readAt_of_split (toBytes h.timestamp ++ toBytes h.processId ++ toBytes h.threadId ++
        toBytes h.file ++ toBytes h.func) _
      (by simpa only [List.append_assoc] using hBuffer) (by simp only [List.length_append, length_toBytes])
  have hLevel : readAt l.buffer 44 1 = some h.level :=
    readAt_of_split (toBytes h.timestamp ++ toBytes h.processId ++ toBytes h.threadId ++
        toBytes h.file ++ toBytes h.func ++ toBytes h.line) _
      (by simpa only [List.append_assoc] using hBuffer) (by simp only [List.length_append, length_toBytes])
  unfold LogLine.stringify
  simp only [hTimestamp, hProcess, hThread, hFile, hFunc, hLine, hLevel, Option.bind_eq_bind,
    Option.bind_some]
  rfl

/-- Every header and all arguments that are streamed behind it are written inside of the current
buffer, and printed from there. -/
theorem logged (fresh : Fresh) (stack : { bytes : List UInt8 // bytes.length = stackSize })
    (h : Header) (args : List Arg) :
    ∃ l₀ l, LogLine.new stack h = some l₀ ∧ args.foldlM (LogLine.push fresh) l₀ = some l ∧
      h.encoded <+: l.buffer ∧
      l.stringify os = some (os.header h ++ args.flatMap os.arg ++ ascii "\n", l.usedByted) := by
  obtain ⟨l₀, hNew, hStart⟩ := new_holds stack h
  obtain ⟨l, hPush, hHolds⟩ := LogLine.foldlM_push_holds fresh hStart args
  obtain ⟨rest, hRest⟩ := hHolds.buffer
  have hDecode := exec_decode os h.encoded rest args
  have hUsed : l.usedByted = h.encoded.length + (args.flatMap Arg.encoded).length := by
    rw [hHolds.used, List.length_append]
  rw [hRest, ← hUsed, h.length_encoded] at hDecode
  have hBuffer : l.buffer = h.encoded ++ (args.flatMap Arg.encoded ++ rest) := by
    rw [← hRest, List.append_assoc]
  refine ⟨l₀, l, hNew, hPush, ?_, ?_⟩
  · rw [hBuffer]
    exact List.prefix_append _ _
  · rw [stringify_header os _ hBuffer, hDecode]
    rfl

/-- Every header and all arguments that are streamed behind it are written inside of the current
buffer, and `stringify` prints the header, the arguments in their order and the end of the line, with
`Decode` ending at the end of the used bytes. -/
theorem prints_what_was_logged (fresh : Fresh) (stack : { bytes : List UInt8 // bytes.length = stackSize })
    (h : Header) (args : List Arg) :
    ∃ l₀ l, LogLine.new stack h = some l₀ ∧ args.foldlM (LogLine.push fresh) l₀ = some l ∧
      l.stringify os = some (os.header h ++ args.flatMap os.arg ++ ascii "\n", l.usedByted) := by
  obtain ⟨l₀, l, hNew, hPush, -, hPrints⟩ := logged os fresh stack h args
  exact ⟨l₀, l, hNew, hPush, hPrints⟩

end DemoCode.NanoLog
