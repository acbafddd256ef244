import Mathlib.Data.List.GetD
import DemoCode.FeedProxy.Json
import DemoCode.Lib.Endian

/-! `ST_COMMONHDR` of `common_hdr.h`, packed little-endian, the packing of a message behind it, and
the length it states as `OnLevReadDone` computes with it. -/

namespace DemoCode.FeedProxy

def commonHdrLen : Nat := 16

def startHdr : UInt8 := 0xEF

def endHdr : UInt8 := 0xCD

/-- `ST_COMMONHDR`. -/
structure CommonHdr where
  start : UInt8 := startHdr
  cmd : UInt16 := 0
  dataLen : UInt32 := 0
  asyncNum : UInt64 := 0
  «end» : UInt8 := endHdr
  deriving DecidableEq, Repr

namespace CommonHdr

def encode (h : CommonHdr) : List UInt8 :=
  [h.start] ++ Endian.little 2 h.cmd.toNat ++ Endian.little 4 h.dataLen.toNat ++
    Endian.little 8 h.asyncNum.toNat ++ [h.end]

@[simp] theorem length_encode (h : CommonHdr) : h.encode.length = commonHdrLen := by
  simp [encode, commonHdrLen]

/-- The header in the first bytes of a buffer. -/
def read (b : List UInt8) : CommonHdr where
  start := b.getD 0 0
  cmd := UInt16.ofNat (Endian.ofLittle ((b.drop 1).take 2))
  dataLen := UInt32.ofNat (Endian.ofLittle ((b.drop 3).take 4))
  asyncNum := UInt64.ofNat (Endian.ofLittle ((b.drop 7).take 8))
  «end» := b.getD 15 0

theorem read_encode (h : CommonHdr) (rest : List UInt8) : read (h.encode ++ rest) = h := by
  obtain ⟨start, cmd, dataLen, asyncNum, stop⟩ := h
  have hCmd : Endian.ofLittle (Endian.little 2 cmd.toNat) = cmd.toNat :=
    Endian.ofLittle_little cmd.toNat_lt
  have hLen : Endian.ofLittle (Endian.little 4 dataLen.toNat) = dataLen.toNat :=
    Endian.ofLittle_little dataLen.toNat_lt
  have hNum : Endian.ofLittle (Endian.little 8 asyncNum.toNat) = asyncNum.toNat :=
    Endian.ofLittle_little asyncNum.toNat_lt
  simp only [Endian.little] at hCmd hLen hNum
  simp only [read, encode, Endian.little, List.cons_append, List.nil_append, List.drop_succ_cons,
    List.drop_zero, List.take_succ_cons, List.take_zero, List.getD_cons_zero, List.getD_cons_succ,
    hCmd, hLen, hNum, UInt16.ofNat_toNat, UInt32.ofNat_toNat, UInt64.ofNat_toNat]

/-- The bytes of the header that was read are the first bytes of the buffer. -/
theorem encode_read {b : List UInt8} (hb : commonHdrLen ≤ b.length) :
    (read b).encode = b.take commonHdrLen := by
  have hPart : ∀ (i n : Nat), i + n ≤ 16 →
      ((b.drop i).take n).length = n ∧
        Endian.ofLittle ((b.drop i).take n) < 256 ^ n := by
    intro i n h
    have hLength : ((b.drop i).take n).length = n := by
      simp only [List.length_take, List.length_drop, commonHdrLen] at hb ⊢
      omega
    have hLt := Endian.ofLittle_lt ((b.drop i).take n)
    rw [hLength] at hLt
    exact ⟨hLength, hLt⟩
  have hOne : ∀ i < 16, [b.getD i 0] = (b.drop i).take 1 := by
    intro i h
    have hi : i < b.length := Nat.lt_of_lt_of_le h hb
    rw [List.drop_eq_getElem_cons hi, List.take_succ_cons, List.take_zero,
      List.getD_eq_getElem _ _ hi]
  obtain ⟨h2, hLt2⟩ := hPart 1 2 (by decide)
  obtain ⟨h4, hLt4⟩ := hPart 3 4 (by decide)
  obtain ⟨h8, hLt8⟩ := hPart 7 8 (by decide)
  have hCmd := Endian.little_ofLittle ((b.drop 1).take 2)
  have hLen := Endian.little_ofLittle ((b.drop 3).take 4)
  have hNum := Endian.little_ofLittle ((b.drop 7).take 8)
  rw [h2] at hCmd
  rw [h4] at hLen
  rw [h8] at hNum
  simp only [encode, read]
  rw [UInt16.toNat_ofNat_of_lt' hLt2, UInt32.toNat_ofNat_of_lt' hLt4,
    UInt64.toNat_ofNat_of_lt' hLt8, hCmd, hLen, hNum, hOne 0 (by decide), hOne 15 (by decide),
    show commonHdrLen = 1 + 2 + 4 + 8 + 1 from rfl, List.take_add, List.take_add, List.take_add,
    List.take_add]
  rfl

/-- `int dataLen = pHdl->data_len_`. -/
def intLen (h : CommonHdr) : Int := wrap32 h.dataLen.toNat

theorem intLen_small {h : CommonHdr} (hLen : h.dataLen.toNat < 2 ^ 31) :
    h.intLen = h.dataLen.toNat := wrap32_of_range (by omega) (by omega)

theorem intLen_large {h : CommonHdr} (hLen : 2 ^ 31 ≤ h.dataLen.toNat) :
    h.intLen = h.dataLen.toNat - 2 ^ 32 := by
  have hLt : h.dataLen.toNat < 2 ^ 32 := h.dataLen.toNat_lt
  rw [intLen, ← wrap32_sub]
  exact wrap32_of_range (by omega) (by omega)

theorem dataLen_of_intLen {h : CommonHdr} {n : Nat} (hn : h.intLen = n) :
    h.dataLen.toNat = n := by
  have hLt : h.dataLen.toNat < 2 ^ 32 := h.dataLen.toNat_lt
  by_cases hLen : h.dataLen.toNat < 2 ^ 31
  · rw [intLen_small hLen] at hn
    omega
  · rw [intLen_large (by omega)] at hn
    omega

end CommonHdr

/-- An `int` compared with a `size_t`. -/
def sizeT (n : Int) : Nat := (n % 2 ^ 64).toNat

/-- `PackMsg`. -/
def packMsg (rawMsg : List UInt8) : List UInt8 :=
  ({ dataLen := UInt32.ofNat rawMsg.length } : CommonHdr).encode ++ rawMsg

end DemoCode.FeedProxy
