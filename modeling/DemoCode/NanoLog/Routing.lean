import DemoCode.NanoLog.Decode
import DemoCode.NanoLog.LogWriter

/-! Where a log line goes.  `get_level` leaves the process id out of the offset, so that what it reads
is a byte of the pointer to the name of the function. -/

namespace DemoCode.NanoLog

theorem readAt_byte {buf : List UInt8} {off : Nat} {b : UInt8} (h : buf[off]? = some b) :
    readAt buf off 1 = some (BitVec.ofNat (8 * 1) b.toNat) := by
  obtain ⟨hLess, hByte⟩ := List.getElem?_eq_some_iff.mp h
  rw [readAt, if_pos (Nat.succ_le_of_lt hLess), List.drop_eq_getElem_cons hLess, hByte]
  rfl

theorem getElem?_toBytes {size i : Nat} (h : i < size) (bits : BitVec (8 * size)) :
    (toBytes bits)[i]? = some (UInt8.ofNat (bits.toNat / 256 ^ i % 256)) :=
  Endian.getElem?_little h _

/-- The byte that `get_level` reads is the fifth one of the pointer to the function's name. -/
theorem Header.encoded_func (h : Header) :
    h.encoded[36]? = some (UInt8.ofNat (h.func.toNat / 256 ^ 4 % 256)) := by
  have hBefore : (toBytes h.timestamp ++ toBytes h.processId ++ toBytes h.threadId ++
      toBytes h.file).length = 32 := by
    simp only [List.length_append, length_toBytes]
  rw [encoded, List.append_assoc, List.append_assoc, List.getElem?_append_right (by omega), hBefore,
    List.getElem?_append_left (by rw [length_toBytes]; decide)]
  exact getElem?_toBytes (by decide) h.func

theorem getLevel_eq {l : LogLine} {h : Header} (hBuffer : h.encoded <+: l.buffer) :
    l.getLevel = some (h.func.extractLsb' 32 8) := by
  obtain ⟨rest, hRest⟩ := hBuffer
  have hByte : l.buffer[36]? = some (UInt8.ofNat (h.func.toNat / 256 ^ 4 % 256)) := by
    rw [← hRest, List.getElem?_append_left (by rw [h.length_encoded]; decide)]
    exact h.encoded_func
  rw [LogLine.getLevel, readAt_byte hByte]
  congr 1
  apply BitVec.eq_of_toNat_eq
  rw [BitVec.toNat_ofNat, BitVec.extractLsb'_toNat, Nat.shiftRight_eq_div_pow]
  show (h.func.toNat / 2 ^ 32 % 2 ^ 8 % 2 ^ 8 % 2 ^ 8) = _
  omega

/-- A line goes where its level says: `get_level` returns the level that the constructor got, which is
the one that `stringify` prints, and the line is handed to the writer of that level. -/
structure Routed (os : Stream) (m : NgLogMultiFileWriter) (h : Header) (args : List Arg)
    (l : LogLine) : Prop where
  level : l.getLevel = some h.level
  prints : (l.stringify os).map Prod.fst =
    some (os.header h ++ args.flatMap os.arg ++ ascii "\n")
  writer : m.handedTo l = some (m.getFileWriter h.level)

/-- **Routing**: a log line goes where its level says exactly if the level is the fifth byte of the
pointer to the function's name. -/
theorem routed_iff (os : Stream) (m : NgLogMultiFileWriter) (fresh : Fresh)
    (stack : { bytes : List UInt8 // bytes.length = stackSize }) (h : Header) (args : List Arg) :
    ∃ l₀ l, LogLine.new stack h = some l₀ ∧ args.foldlM (LogLine.push fresh) l₀ = some l ∧
      (Routed os m h args l ↔ h.func.extractLsb' 32 8 = h.level) := by
  obtain ⟨l₀, l, hNew, hPush, hBuffer, hPrints⟩ := logged os fresh stack h args
  have hLevel := getLevel_eq hBuffer
  refine ⟨l₀, l, hNew, hPush, ?_⟩
  constructor
  · intro hRouted
    exact Option.some.inj (hLevel.symm.trans hRouted.level)
  · intro hSame
    rw [hSame] at hLevel
    refine ⟨hLevel, ?_, ?_⟩
    · rw [hPrints]
      rfl
    · rw [NgLogMultiFileWriter.handedTo, hLevel]
      rfl

/-- A line of level `ERR` whose pointer has 0x55 as its fifth byte. -/
theorem not_routed :
    ¬∀ (os : Stream) (m : NgLogMultiFileWriter) (fresh : Fresh)
      (stack : { bytes : List UInt8 // bytes.length = stackSize }) (h : Header) (args : List Arg)
      (l₀ l : LogLine), LogLine.new stack h = some l₀ →
        args.foldlM (LogLine.push fresh) l₀ = some l → Routed os m h args l := by
  intro hAll
  let os : Stream := ⟨fun _ => [], fun _ => [], fun _ _ => [], fun _ => []⟩
  let h : Header := ⟨0, 0, 0, 0, 0x0000555555554abc, 0, 4⟩
  let fresh : Fresh := fun n => ⟨List.replicate n 0, List.length_replicate⟩
  obtain ⟨l₀, l, hNew, hPush, hBuffer, -⟩ := logged os fresh (fresh stackSize) h []
  have hRouted := hAll os (.new "" "" 1) fresh (fresh stackSize) h [] l₀ l hNew hPush
  have hLevel := (getLevel_eq hBuffer).symm.trans hRouted.level
  exact absurd (Option.some.inj hLevel) (by decide)

end DemoCode.NanoLog
