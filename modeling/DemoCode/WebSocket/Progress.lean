import Mathlib.Data.List.GetD
import DemoCode.WebSocket.Codec

/-! The accesses of `ParseMsg` to `m_pkgCache`, and its lengths of 32 and 64 bits.  An access outside of
the cache is `none`, and so is an `int` that overflows.  `parseMsg` in `Proto` is the same function on
numbers that have no bound.  `ParseMsg` returns with at most a part of one frame left, unless it comes
to a message without data: then it throws, and the whole frame stays. -/

namespace DemoCode.WebSocket

/-- `m_headSize`. -/
def headSize : UInt32 := 2

/-- The `len` bytes at `pos`. -/
def bytesAt (pkgCache : List UInt8) (pos len : Nat) : Option (List UInt8) :=
  if pos + len ≤ pkgCache.length then some ((pkgCache.drop pos).take len) else none

/-- `*pHead`. -/
def headAt (pkgCache : List UInt8) : Option Head := do
  let b0 ← pkgCache[0]?
  let b1 ← pkgCache[1]?
  some (Head.ofBytes b0 b1)

/-- The length that `keyLen` bytes behind the head state, or nothing where `ParseMsg` returns -1. -/
def longLengthAt (keyLen : UInt32) (pkgCache : List UInt8) : Option (Option (UInt32 × UInt64)) :=
  if pkgCache.length < (keyLen + headSize).toNat then
    some none
  else do
    let l ← bytesAt pkgCache headSize.toNat keyLen.toNat
    some (some (keyLen, UInt64.ofNat (Endian.ofBig l)))

/-- `keyLen` and `dataLen`. -/
def lengthsAt (pHead : Head) (pkgCache : List UInt8) : Option (Option (UInt32 × UInt64)) :=
  if pHead.payloadLen.val < 126 then
    some (some (0, UInt64.ofNat pHead.payloadLen))
  else if pHead.payloadLen.val = 126 then
    longLengthAt 2 pkgCache
  else
    longLengthAt 8 pkgCache

/-- The loop `dataStart[i] ^= cMask[i % maskLen]` over an `int`. -/
def unmask (pkgCache : List UInt8) (cMask dataStart dataLen i : Nat) : Option (List UInt8) :=
  if i < dataLen then do
    let key ← pkgCache[cMask + i % 4]?
    let b ← pkgCache[dataStart + i]?
    if i + 1 < 2 ^ 31 then
      unmask (pkgCache.set (dataStart + i) (b ^^^ key)) cMask dataStart dataLen (i + 1)
    else
      none
  else
    some pkgCache
termination_by dataLen - i

/-- A pass with a whole frame in the cache. -/
def takeFrameAt (p : Proto) (pHead : Head) (keyLen totalHeadLen : UInt32) (dataLen : UInt64) :
    Option (Loop.Pass Proto Callback (Ending × Proto)) := do
  let pkgCache ←
    if pHead.mask then
      unmask p.pkgCache (headSize + keyLen).toNat totalHeadLen.toNat dataLen.toNat 0
    else
      some p.pkgCache
  let data ← bytesAt pkgCache totalHeadLen.toNat dataLen.toNat
  let dataCache := p.dataCache ++ data
  some (finishFrame pHead ⟨pkgCache, dataCache⟩ (pkgCache.drop (totalHeadLen.toUInt64 + dataLen).toNat))

/-- One pass of the `while (true)` of `ParseMsg`. -/
def parsePassAt (defaultDataMaxSize : UInt32) (p : Proto) :
    Option (Loop.Pass Proto Callback (Ending × Proto)) :=
  if p.pkgCache.length < headSize.toNat then
    some (.leave [] closeClear)
  else do
    let pHead ← headAt p.pkgCache
    if !checkOpCode (.ofCode pHead.opCode) then
      some (.leave [] closeClear)
    else do
      let maskLen : UInt32 := if pHead.mask then 4 else 0
      match ← lengthsAt pHead p.pkgCache with
      | none => some (.leave [] (.returned (-1), p))
      | some (keyLen, dataLen) =>
        if dataLen > defaultDataMaxSize.toUInt64 then
          some (.leave [] closeClear)
        else
          let totalHeadLen := headSize + keyLen + maskLen
          if p.pkgCache.length < (totalHeadLen.toUInt64 + dataLen).toNat then
            some (.leave [] (.returned (-1), p))
          else
            takeFrameAt p pHead keyLen totalHeadLen dataLen

/-- `ParseMsg` in at most `fuel` passes: the calls of the callback, how it ends, and the caches after it;
there is no end when an access fails. -/
def parseMsgAt (defaultDataMaxSize : UInt32) (fuel : Nat) (p : Proto) (rawMsg : List UInt8) :
    Option (List Callback × Option (Ending × Proto)) :=
  Loop.run (fun p => .ofOption (parsePassAt defaultDataMaxSize p)) fuel { p with pkgCache := p.pkgCache ++ rawMsg }

section

variable {limit keyLen : UInt32} {dataLen : UInt64} {p : Proto} {b : List UInt8} {pHead : Head}
  {cMask dataStart size i : Nat}

/-! ### Accesses -/

theorem bytesAt_eq {pos len : Nat} (h : pos + len ≤ b.length) : bytesAt b pos len = some ((b.drop pos).take len) :=
  if_pos h

theorem longLengthAt_eq (hKey : keyLen.toNat ≤ 8) :
    (b.length < keyLen.toNat + 2 ∧ longLengthAt keyLen b = some none) ∨
      ∃ dataLen : UInt64, ¬b.length < keyLen.toNat + 2 ∧ longLengthAt keyLen b = some (some (keyLen, dataLen)) ∧
        Endian.ofBig ((b.drop 2).take keyLen.toNat) = dataLen.toNat := by
  have hSum : (keyLen + headSize).toNat = keyLen.toNat + 2 := by
    rw [UInt32.toNat_add]
    exact Nat.mod_eq_of_lt (by show keyLen.toNat + 2 < 2 ^ 32; omega)
  unfold longLengthAt
  rw [hSum]
  by_cases hWait : b.length < keyLen.toNat + 2
  · rw [if_pos hWait]
    exact .inl ⟨hWait, rfl⟩
  · right
    have hAt : bytesAt b headSize.toNat keyLen.toNat = some ((b.drop 2).take keyLen.toNat) :=
      bytesAt_eq (by show 2 + keyLen.toNat ≤ b.length; omega)
    have hLen : ((b.drop 2).take keyLen.toNat).length = keyLen.toNat := by
      rw [List.length_take, List.length_drop]
      omega
    have hLt := Endian.ofBig_lt ((b.drop 2).take keyLen.toNat)
    rw [hLen] at hLt
    rw [if_neg hWait, hAt]
    refine ⟨_, hWait, rfl, ?_⟩
    rw [UInt64.toNat_ofNat_of_lt' (Nat.lt_of_lt_of_le hLt (Nat.pow_le_pow_right (by decide) hKey))]

theorem lengthsAt_eq : (lengthsAt pHead b = some none ∧ keyAndDataLen pHead b = none) ∨
    ∃ (keyLen : UInt32) (dataLen : UInt64), lengthsAt pHead b = some (some (keyLen, dataLen)) ∧
      keyAndDataLen pHead b = some (keyLen.toNat, dataLen.toNat) ∧ keyLen.toNat ≤ 8 := by
  unfold lengthsAt keyAndDataLen
  by_cases hShort : pHead.payloadLen.val < 126
  · right
    rw [if_pos hShort, if_pos hShort]
    refine ⟨0, _, rfl, ?_, by decide⟩
    rw [UInt64.toNat_ofNat_of_lt' (Nat.lt_trans hShort (by decide))]
    rfl
  rw [if_neg hShort, if_neg hShort]
  by_cases hTwo : pHead.payloadLen.val = 126
  · rw [if_pos hTwo, if_pos hTwo]
    obtain ⟨hWait, hAt⟩ | ⟨dataLen, hWait, hAt, hLen⟩ := @longLengthAt_eq 2 b (by decide)
    · exact .inl ⟨hAt, if_pos hWait⟩
    · exact .inr ⟨2, dataLen, hAt, hLen ▸ if_neg hWait, by decide⟩
  · rw [if_neg hTwo, if_neg hTwo]
    obtain ⟨hWait, hAt⟩ | ⟨dataLen, hWait, hAt, hLen⟩ := @longLengthAt_eq 8 b (by decide)
    · exact .inl ⟨hAt, if_pos hWait⟩
    · exact .inr ⟨8, dataLen, hAt, hLen ▸ if_neg hWait, by decide⟩

/-- **The loop over the data** changes the bytes that are left, each by the byte of the mask for it. -/
theorem unmask_eq (hData : dataStart + size ≤ b.length) (hMask : cMask + 4 ≤ dataStart) (hInt : size < 2 ^ 31)
    (hi : i ≤ size) : ∃ b', unmask b cMask dataStart size i = some b' ∧ b'.length = b.length ∧
      ∀ j, b'[j]? = if dataStart + i ≤ j ∧ j < dataStart + size then
        b[j]?.map (· ^^^ b.getD (cMask + (j - dataStart) % 4) 0) else b[j]? := by
  induction hn : size - i generalizing b i with
  | zero =>
    refine ⟨b, ?_, rfl, fun j => ?_⟩
    · rw [unmask, if_neg (by omega)]
    · rw [if_neg (by omega)]
  | succ n ih =>
    have hKey : cMask + i % 4 < b.length := by omega
    have hHere : dataStart + i < b.length := by omega
    obtain ⟨b', hRest, hLength, hBytes⟩ :=
      ih (b := b.set (dataStart + i) (b[dataStart + i] ^^^ b[cMask + i % 4])) (i := i + 1)
        (by rw [List.length_set]; exact hData) (by omega) (by omega)
    refine ⟨b', ?_, by rw [hLength, List.length_set], fun j => ?_⟩
    · rw [unmask, if_pos (by omega), List.getElem?_eq_getElem hKey, List.getElem?_eq_getElem hHere]
      simp only [Option.bind_eq_bind, Option.bind_some]
      rw [if_pos (by omega), hRest]
    rw [hBytes]
    by_cases hSame : j = dataStart + i
    · subst hSame
      rw [if_neg (by omega), if_pos (by omega), List.getElem?_set_self hHere, List.getElem?_eq_getElem hHere,
        Nat.add_sub_cancel_left, List.getD_eq_getElem _ _ hKey]
      rfl
    · -- the mask stands before the data
      have hOther : (b.set (dataStart + i) (b[dataStart + i] ^^^ b[cMask + i % 4])).getD
          (cMask + (j - dataStart) % 4) 0 = b.getD (cMask + (j - dataStart) % 4) 0 := by
        rw [List.getD_eq_getElem?_getD, List.getElem?_set_ne (by omega), ← List.getD_eq_getElem?_getD]
      rw [List.getElem?_set_ne (Ne.symm hSame), hOther]
      exact if_congr (by omega) rfl rfl

theorem getElem?_part (b : List UInt8) (pos len a : Nat) :
    ((b.drop pos).take len)[a]? = if a < len then b[pos + a]? else none := by
  rw [List.getElem?_take, List.getElem?_drop]

/-- What the loop leaves of the data, and of what is behind it. -/
theorem unmask_parts (hData : dataStart + size ≤ b.length) (hMask : cMask + 4 ≤ dataStart) (hInt : size < 2 ^ 31) :
    ∃ b', unmask b cMask dataStart size 0 = some b' ∧ b'.length = b.length ∧
      (b'.drop dataStart).take size = xorMask ((b.drop cMask).take 4) ((b.drop dataStart).take size) ∧
      b'.drop (dataStart + size) = b.drop (dataStart + size) := by
  obtain ⟨b', hUnmask, hLength, hBytes⟩ := unmask_eq hData hMask hInt (Nat.zero_le size)
  refine ⟨b', hUnmask, hLength, ?_, ?_⟩
  · apply List.ext_getElem?
    intro a
    rw [xorMask, List.getElem?_mapIdx, getElem?_part, getElem?_part, hBytes]
    by_cases ha : a < size
    · have hKey : ((b.drop cMask).take 4).getD (a % 4) 0 = b.getD (cMask + a % 4) 0 := by
        rw [List.getD_eq_getElem?_getD, getElem?_part, if_pos (by omega), ← List.getD_eq_getElem?_getD]
      rw [if_pos ha, if_pos ha, if_pos (by omega), Nat.add_sub_cancel_left, hKey]
    · rw [if_neg ha, if_neg ha]
      rfl
  · apply List.ext_getElem?
    intro a
    rw [List.getElem?_drop, List.getElem?_drop, hBytes, if_neg (by omega)]

/-! ### Passes -/

theorem toNat_add_dataLen {totalHeadLen : UInt32} (hInt : dataLen.toNat < 2 ^ 32) :
    (totalHeadLen.toUInt64 + dataLen).toNat = totalHeadLen.toNat + dataLen.toNat := by
  have hHead := totalHeadLen.toNat_lt
  rw [UInt64.toNat_add, UInt32.toNat_toUInt64]
  exact Nat.mod_eq_of_lt (by omega)

/-- The package cache matters at the end of a pass only when there is no data. -/
theorem finishFrame_congr {b' d rest : List UInt8} (h : d = [] → b' = b) :
    finishFrame pHead ⟨b', d⟩ rest = finishFrame pHead ⟨b, d⟩ rest := by
  by_cases hNone : d = []
  · rw [h hNone]
  · simp only [finishFrame, List.isEmpty_iff, hNone, if_false]

/-- **A whole frame** is taken with every access inside the cache. -/
theorem takeFrameAt_eq {totalHeadLen : UInt32} (hInt : dataLen.toNat < 2 ^ 31) (hKey : keyLen.toNat ≤ 8)
    (hHead : totalHeadLen.toNat = 2 + keyLen.toNat + pHead.maskLen)
    (hLength : 2 + keyLen.toNat + pHead.maskLen + dataLen.toNat ≤ p.pkgCache.length) :
    takeFrameAt p pHead keyLen totalHeadLen dataLen = some (takeFrame p pHead keyLen.toNat dataLen.toNat) := by
  have hMaskAt : (headSize + keyLen).toNat = 2 + keyLen.toNat := by
    rw [UInt32.toNat_add]
    exact Nat.mod_eq_of_lt (by show 2 + keyLen.toNat < 2 ^ 32; omega)
  have hTotal : (totalHeadLen.toUInt64 + dataLen).toNat = 2 + keyLen.toNat + pHead.maskLen + dataLen.toNat := by
    rw [toNat_add_dataLen (by omega), hHead]
  rw [takeFrameAt, takeFrame, hMaskAt, hTotal, hHead]
  by_cases hMask : pHead.mask = true
  · have hLen : pHead.maskLen = 4 := if_pos hMask
    rw [hLen] at hLength ⊢
    have hBefore : 2 + keyLen.toNat + 4 ≤ 2 + keyLen.toNat + 4 := Nat.le_refl _
    obtain ⟨b', hUnmask, hSame, hData, hRest⟩ := unmask_parts hLength hBefore hInt
    have hAt := bytesAt_eq (hSame ▸ hLength)
    simp only [if_pos hMask, hUnmask, hAt, Option.bind_eq_bind, Option.bind_some, hData, hRest]
    refine congrArg some (finishFrame_congr fun hNone => ?_)
    -- without data there was nothing to unmask
    have hNoData := congrArg List.length (List.append_eq_nil_iff.mp hNone).2
    rw [length_xorMask, List.length_take, List.length_drop, List.length_nil] at hNoData
    rw [unmask, if_neg (by omega)] at hUnmask
    exact (Option.some.inj hUnmask).symm
  · have hAt := bytesAt_eq hLength
    simp only [if_neg hMask, hAt, Option.bind_eq_bind, Option.bind_some]

/-- **Every access of a pass** is inside the cache, and no length wraps. -/
theorem parsePassAt_eq (hLimit : limit.toNat < 2 ^ 31) (p : Proto) :
    parsePassAt limit p = some (parsePass limit p) := by
  obtain ⟨pkgCache, dataCache⟩ := p
  match pkgCache with
  | [] => rfl
  | [_] => rfl
  | b0 :: b1 :: tail =>
    have hHead : headAt (b0 :: b1 :: tail) = some (Head.ofBytes b0 b1) := rfl
    rw [parsePassAt, if_neg (by show ¬tail.length + 2 < 2; omega), parsePass]
    simp only [hHead, Option.bind_eq_bind, Option.bind_some]
    cases checkOpCode (.ofCode (Head.ofBytes b0 b1).opCode) with
    | false => rfl
    | true =>
    simp only [Bool.not_true, Bool.false_eq_true, if_false]
    obtain ⟨hWait, hKey⟩ | ⟨keyLen, dataLen, hAt, hKey, hShort⟩ :=
      @lengthsAt_eq (b0 :: b1 :: tail) (Head.ofBytes b0 b1)
    · simp only [hWait, hKey, Option.bind_some]
    simp only [hAt, hKey, Option.bind_some]
    have hOver : dataLen > limit.toUInt64 ↔ limit.toNat < dataLen.toNat := by
      rw [gt_iff_lt, UInt64.lt_iff_toNat_lt, UInt32.toNat_toUInt64]
    by_cases hLong : limit.toNat < dataLen.toNat
    · rw [if_pos (hOver.mpr hLong), if_pos hLong]
    rw [if_neg (hOver.not.mpr hLong), if_neg hLong]
    have hTotal : (headSize + keyLen + if (Head.ofBytes b0 b1).mask then 4 else 0).toNat =
        2 + keyLen.toNat + (Head.ofBytes b0 b1).maskLen := by
      unfold Head.maskLen
      split
      · rw [UInt32.toNat_add, UInt32.toNat_add]
        show ((2 + keyLen.toNat) % 2 ^ 32 + 4) % 2 ^ 32 = _
        omega
      · rw [UInt32.toNat_add, UInt32.toNat_add]
        show ((2 + keyLen.toNat) % 2 ^ 32 + 0) % 2 ^ 32 = _
        omega
    rw [toNat_add_dataLen (by omega), hTotal]
    by_cases hLength : (b0 :: b1 :: tail).length <
        2 + keyLen.toNat + (Head.ofBytes b0 b1).maskLen + dataLen.toNat
    · rw [if_pos hLength, if_pos hLength]
    · rw [if_neg hLength, if_neg hLength]
      exact takeFrameAt_eq (by omega) hShort hTotal (Nat.not_lt.mp hLength)

theorem parseMsgAt_settles (hLimit : limit.toNat < 2 ^ 31) (p : Proto) (rawMsg : List UInt8) :
    Loop.Settles (fun fuel => parseMsgAt limit fuel p rawMsg)
      ((parseMsg limit p rawMsg).1, some (parseMsg limit p rawMsg).2) := by
  obtain ⟨n, hn⟩ := (parseLoop limit).settles_exec { p with pkgCache := p.pkgCache ++ rawMsg }
  refine ⟨n, fun fuel hFuel => ?_⟩
  have hRun : Loop.run (parsePass limit) fuel { p with pkgCache := p.pkgCache ++ rawMsg } =
      some (parseMsg limit p rawMsg) := hn fuel hFuel
  show Loop.run _ fuel { p with pkgCache := p.pkgCache ++ rawMsg } = _
  rw [Loop.run_ofOption (parsePassAt_eq hLimit), hRun, Option.map_some]

/-! ### What is left in the caches -/

/-- The bytes are the beginning of a frame, and not all of it. -/
def Incomplete (b : List UInt8) : Prop :=
  ∃ f : Frame, checkOpCode f.opCode = true ∧ b <+: f.encode ∧ b.length < f.encode.length

/-- The caches after `ParseMsg` has returned `ret`. -/
structure Left (limit : UInt32) (ret : Int) (p : Proto) : Prop where
  returned : ret = 0 ∨ ret = -1 ∨ ret = -2
  all : ret = 0 → p.pkgCache = []
  closed : ret = -2 → p.pkgCache = [] ∧ p.dataCache = []
  waits : ret = -1 → Incomplete p.pkgCache ∧ p.pkgCache.length < 14 + limit.toNat

theorem left_closed : Left limit (-2) .fresh where
  returned := .inr (.inr rfl)
  all := nofun
  closed _ := ⟨rfl, rfl⟩
  waits := nofun

theorem left_all (hNone : p.pkgCache = []) : Left limit 0 p :=
  ⟨.inl rfl, fun _ => hNone, fun h => absurd h (by decide), fun h => absurd h (by decide)⟩

theorem left_waits (hWaits : Incomplete p.pkgCache ∧ p.pkgCache.length < 14 + limit.toNat) : Left limit (-1) p :=
  ⟨.inr (.inl rfl), fun h => absurd h (by decide), fun h => absurd h (by decide), fun _ => hWaits⟩

/-- A length that is not there yet will be, and its bytes are not. -/
theorem keyAndDataLen_none (h : keyAndDataLen pHead b = none) : ∃ n ≤ 8, b.length < 2 + n ∧
    ∀ c : List UInt8, 8 ≤ c.length → 2 ≤ b.length →
      ∃ dataLen, keyAndDataLen pHead (b ++ c) = some (n, dataLen) := by
  have hTop := pHead.payloadLen.isLt
  have hLong : ¬pHead.payloadLen.val < 126 := by
    intro hShort
    rw [keyAndDataLen, if_pos hShort] at h
    cases h
  by_cases hTwo : pHead.payloadLen.val = 126
  · have hLen : pHead.payloadLen = 126 := Fin.ext hTwo
    refine ⟨2, by decide, ?_, fun c hc hb => ⟨_, keyAndDataLen_two hLen (by rw [List.length_append]; omega)⟩⟩
    by_contra hThere
    rw [keyAndDataLen_two hLen (by omega)] at h
    cases h
  · have hLen : pHead.payloadLen = 127 := Fin.ext (by show pHead.payloadLen.val = 127; omega)
    refine ⟨8, by decide, ?_, fun c hc hb => ⟨_, keyAndDataLen_eight hLen (by rw [List.length_append]; omega)⟩⟩
    by_contra hThere
    rw [keyAndDataLen_eight hLen (by omega)] at h
    cases h

theorem keyAndDataLen_le {n size : Nat} (h : keyAndDataLen pHead b = some (n, size)) : n ≤ 8 := by
  obtain ⟨-, hNone⟩ | ⟨keyLen, dataLen, -, hSome, hLe⟩ := @lengthsAt_eq b pHead
  · rw [h] at hNone
    cases hNone
  · rw [h] at hSome
    cases hSome
    exact hLe

/-- What is missing is filled up to a frame. -/
theorem incomplete_of_lengths {n : Nat} {c : List UInt8} (hOp : checkOpCode (.ofCode pHead.opCode) = true)
    (hHead : b.take 2 = [pHead.byte0, pHead.byte1]) (hKey : keyAndDataLen pHead (b ++ c) = some (n, size))
    (hLess : b.length < 2 + n + pHead.maskLen + size) : Incomplete b := by
  have hTwo : 2 ≤ b.length := by
    have hLength : (b.take 2).length = 2 := congrArg List.length hHead
    rw [List.length_take] at hLength
    omega
  obtain ⟨rest, hRest⟩ : ∃ rest, rest = c ++ List.replicate (2 + n + pHead.maskLen + size) 0 := ⟨_, rfl⟩
  have hLength : 2 + n + pHead.maskLen + size ≤ (b ++ rest).length := by
    rw [hRest, List.length_append, List.length_append, List.length_replicate]
    omega
  have hHead' : (b ++ rest).take 2 = [pHead.byte0, pHead.byte1] := by
    rw [List.take_append_of_le_length hTwo, hHead]
  have hKey' : keyAndDataLen pHead (b ++ rest) = some (n, size) := by
    rw [hRest, ← List.append_assoc]
    exact keyAndDataLen_append _ hKey
  obtain ⟨f, hTake, -, -, hOpCode, -⟩ := exists_frame_take hHead' hKey' hLength
  have hWhole := congrArg List.length hTake
  rw [List.length_take, Nat.min_eq_left hLength] at hWhole
  refine ⟨f, hOpCode ▸ hOp, ?_, hWhole ▸ hLess⟩
  rw [← hTake]
  exact List.prefix_take_iff.mpr ⟨List.prefix_append b rest, Nat.le_of_lt hLess⟩

/-- **A buffer that waits** holds a part of a frame only. -/
theorem incomplete_of_wait (h : front limit b = .wait) (hb : 2 ≤ b.length) :
    Incomplete b ∧ b.length < 14 + limit.toNat := by
  match b with
  | b0 :: b1 :: tail =>
    have hHead : (b0 :: b1 :: tail).take 2 = [(Head.ofBytes b0 b1).byte0, (Head.ofBytes b0 b1).byte1] := by
      rw [Head.byte0_ofBytes, Head.byte1_ofBytes]
      rfl
    have hMask : (Head.ofBytes b0 b1).maskLen ≤ 4 := by
      unfold Head.maskLen
      split <;> decide
    simp only [front] at h
    split at h
    · cases h
    rename_i hOp
    rw [Bool.not_eq_false] at hOp
    cases hKey : keyAndDataLen (Head.ofBytes b0 b1) (b0 :: b1 :: tail) with
    | none =>
      obtain ⟨n, hn, hLess, hLater⟩ := keyAndDataLen_none hKey
      obtain ⟨size, hSome⟩ := hLater (List.replicate 8 0) (Nat.le_of_eq List.length_replicate.symm) hb
      exact ⟨incomplete_of_lengths hOp hHead hSome (by omega), Nat.lt_of_lt_of_le hLess (by omega)⟩
    | some lengths =>
      obtain ⟨n, size⟩ := lengths
      have hn := keyAndDataLen_le hKey
      simp only [hKey] at h
      split at h
      · cases h
      split at h
      · rename_i hLess
        refine ⟨incomplete_of_lengths (c := []) hOp hHead ?_ hLess, by omega⟩
        rwa [List.append_nil]
      · cases h

/-- Where a pass leaves the loop. -/
theorem parsePass_leave {out : List Callback} {r : Ending × Proto} (h : parsePass limit p = .leave out r) :
    r.1 = .threw ∨ ∃ ret, r.1 = .returned ret ∧ Left limit ret r.2 := by
  by_cases hShort : p.pkgCache.length < 2
  · have hClear : parsePass limit p = .leave [] closeClear := by
      obtain ⟨pkgCache, dataCache⟩ := p
      match pkgCache with
      | [] => rfl
      | [_] => rfl
    rw [hClear] at h
    cases h
    exact .inr ⟨-2, rfl, left_closed⟩
  rw [parsePass_eq (Nat.not_lt.mp hShort)] at h
  cases hFront : front limit p.pkgCache with
  | wait =>
    rw [hFront] at h
    cases h
    exact .inr ⟨-1, rfl, left_waits (incomplete_of_wait hFront (Nat.not_lt.mp hShort))⟩
  | bad =>
    rw [hFront] at h
    cases h
    exact .inr ⟨-2, rfl, left_closed⟩
  | whole pHead keyLen dataLen =>
    rw [hFront] at h
    dsimp only at h
    rw [takeFrame_eq] at h
    rcases ite_eq_iff.mp h with ⟨-, hThrew⟩ | ⟨-, hEnd⟩
    · cases hThrew
      exact .inl rfl
    · rcases ite_eq_iff.mp hEnd with ⟨hEmpty, hLeave⟩ | ⟨-, hAgain⟩
      · cases hLeave
        exact .inr ⟨0, rfl, left_all (List.isEmpty_iff.mp hEmpty)⟩
      · cases hAgain

theorem parseMsg_left (p : Proto) (rawMsg : List UInt8) :
    (parseMsg limit p rawMsg).2.1 = .threw ∨
      ∃ ret, (parseMsg limit p rawMsg).2.1 = .returned ret ∧ Left limit ret (parseMsg limit p rawMsg).2.2 :=
  (parseLoop limit).exec_invariant (I := fun _ => True)
    (Q := fun r => r.1 = .threw ∨ ∃ ret, r.1 = .returned ret ∧ Left limit ret r.2)
    (fun _ _ => trivial) (fun _ hPass => parsePass_leave hPass) trivial

/-- **`ParseMsg`** comes to an end in every state, inside its cache.  It returns, and keeps at most a part
of one frame, if and only if it does not come to a message without data. -/
theorem parseMsg_progress (hLimit : limit.toNat < 2 ^ 31) (p : Proto) (rawMsg : List UInt8) :
    (∃ out ret p', Loop.Settles (fun fuel => parseMsgAt limit fuel p rawMsg) (out, some (.returned ret, p')) ∧
      Left limit ret p') ↔ ¬EmptyNext limit p rawMsg := by
  have hSettles := parseMsgAt_settles hLimit p rawMsg
  rw [← parseMsg_threw]
  constructor
  · rintro ⟨out, ret, p', hReturned, -⟩ hThrew
    have hSame := hSettles.unique hReturned
    rw [Prod.mk.injEq, Option.some.injEq] at hSame
    rw [hSame.2] at hThrew
    cases hThrew
  · intro hNot
    obtain ⟨ret, hRet, hLeft⟩ := (parseMsg_left p rawMsg).resolve_left hNot
    refine ⟨(parseMsg limit p rawMsg).1, ret, (parseMsg limit p rawMsg).2.2, ?_, hLeft⟩
    rw [← hRet]
    exact hSettles

end

/-- One byte of a text frame of two. -/
theorem parseMsg_progress_text :
    (∃ out ret p', Loop.Settles (fun fuel => parseMsgAt 1024 fuel .fresh [0x81, 0x02, 0x61])
      (out, some (.returned ret, p')) ∧ Left 1024 ret p') ↔ ¬EmptyNext 1024 .fresh [0x81, 0x02, 0x61] :=
  parseMsg_progress (by decide) .fresh [0x81, 0x02, 0x61]

/-- An empty text frame. -/
theorem parseMsg_emptyText :
    ¬∀ (limit : UInt32) (p : Proto) (rawMsg : List UInt8), limit.toNat < 2 ^ 31 →
      ∃ out ret p', Loop.Settles (fun fuel => parseMsgAt limit fuel p rawMsg) (out, some (.returned ret, p')) ∧
        Left limit ret p' := by
  intro h
  obtain ⟨out, ret, p', hReturned, -⟩ := h 1024 .fresh [0x81, 0x00] (by decide)
  have hSame := (parseMsgAt_settles (by decide) .fresh [0x81, 0x00]).unique hReturned
  have hThrew : (parseMsg 1024 .fresh [0x81, 0x00]).2.1 = .threw := by decide
  rw [Prod.mk.injEq, Option.some.injEq] at hSame
  rw [hSame.2] at hThrew
  cases hThrew

end DemoCode.WebSocket
