import DemoCode.Lib.Machine
import DemoCode.NanoLog.LogWriter

/-! The sizes and the numbers of log files.  The size at which a writer goes on to the next file is
the configured one modulo 2^32 bytes. -/

namespace DemoCode.NanoLog

/-- A line, and the day on which it is written. -/
structure DatedLine where
  date : String
  text : List UInt8

namespace NgLogFileWriter

def step (w : NgLogFileWriter) (line : DatedLine) : Option (NgLogFileWriter × Unit) :=
  (w.write line.date line.text).map (·, ())

/-- The configured size in bytes. -/
def maxSize (maxSizeMb : UInt32) : Nat := maxSizeMb.toNat * 1048576

/-- A line closes the file exactly if the file is larger with it than configured; the file is then
larger by no more than the line, and the next file has the next number. -/
def RollsRight (maxSizeMb : UInt32) (w : NgLogFileWriter) (line : DatedLine) : Prop :=
  ∃ file w', w.fileOs = some file ∧ w.write line.date line.text = some w' ∧
    if maxSize maxSizeMb < (file.text ++ line.text).length then
      w'.closed = { file with text := file.text ++ line.text } :: w.closed ∧
        (file.text ++ line.text).length < maxSize maxSizeMb + (line.text.length + 1) ∧
        ∃ next, w'.fileOs = some next ∧ next.text = [] ∧
          next.number.toNat = file.number.toNat + 1
    else
      w'.closed = w.closed ∧ w'.fileOs = some { file with text := file.text ++ line.text }

/-- A file that a line takes past the configured size modulo 2^32 is past the configured size as well,
and has not got the last number. -/
def Fits (maxSizeMb : UInt32) (w : NgLogFileWriter) (line : DatedLine) : Prop :=
  ∀ file ∈ w.fileOs,
    maxSize maxSizeMb % 2 ^ 32 < (file.text ++ line.text).length →
      maxSize maxSizeMb < (file.text ++ line.text).length ∧ file.number.toNat + 1 < 2 ^ 32

/-- A writer after its start, with the file that it writes. -/
structure Writes (maxSizeMb : UInt32) (w : NgLogFileWriter) (file : LogFile) : Prop where
  limit : w.logFileMaxSize.toNat = maxSize maxSizeMb % 2 ^ 32
  fileOs : w.fileOs = some file
  bytes : w.bytesWritten = file.text.length
  small : file.text.length ≤ w.logFileMaxSize.toNat
  number : w.fileNumber = file.number + 1

variable {maxSizeMb : UInt32} {w : NgLogFileWriter} {file : LogFile}

theorem writes_initialized (filePath fileName date : String) (maxSizeMb : UInt32) :
    ∃ file, file.number = 0 ∧ file.text = [] ∧
      Writes maxSizeMb ((new filePath fileName maxSizeMb).fileInitialize date) file := by
  refine ⟨_, rfl, rfl, ?_, rfl, rfl, Nat.zero_le _, rfl⟩
  show (maxSizeMb * 1024 * 1024).toNat = _
  rw [UInt32.toNat_mul, UInt32.toNat_mul, maxSize]
  show maxSizeMb.toNat * 1024 % 2 ^ 32 * 1024 % 2 ^ 32 = _
  omega

/-- **One line**: it closes the file exactly if the file is larger with it than the writer notes. -/
theorem Writes.write (h : Writes maxSizeMb w file) (line : DatedLine) :
    ∃ w' file', w.write line.date line.text = some w' ∧ Writes maxSizeMb w' file' ∧
      if maxSize maxSizeMb % 2 ^ 32 < (file.text ++ line.text).length then
        w'.closed = { file with text := file.text ++ line.text } :: w.closed ∧
          file'.text = [] ∧ file'.number = file.number + 1
      else
        w'.closed = w.closed ∧ file' = { file with text := file.text ++ line.text } := by
  have hBytes : w.bytesWritten + (((file.text ++ line.text).length : Int) - file.text.length) =
      (file.text ++ line.text).length := by
    rw [h.bytes]
    omega
  have hMax := h.limit
  let full : LogFile := { file with text := file.text ++ line.text }
  let w₁ : NgLogFileWriter := { w with
    bytesWritten := (file.text ++ line.text).length
    fileOs := some full }
  have hWrite : w.write line.date line.text =
      if ((file.text ++ line.text).length : Int) > w.logFileMaxSize.toNat then
        some (w₁.rollFile line.date)
      else some w₁ := by
    simp only [NgLogFileWriter.write, h.fileOs, hBytes, w₁, full]
  by_cases hLarge : maxSize maxSizeMb % 2 ^ 32 < (file.text ++ line.text).length
  · rw [if_pos (by omega)] at hWrite
    simp only [if_pos hLarge]
    refine ⟨_, _, hWrite, ⟨hMax, rfl, rfl, Nat.zero_le _, rfl⟩, rfl, rfl, h.number⟩
  · rw [if_neg (by omega)] at hWrite
    simp only [if_neg hLarge]
    refine ⟨_, full, hWrite, ⟨hMax, rfl, rfl, ?_, h.number⟩, rfl, rfl⟩
    show (file.text ++ line.text).length ≤ w.logFileMaxSize.toNat
    omega

theorem Writes.rollsRight_iff (h : Writes maxSizeMb w file) (line : DatedLine) :
    RollsRight maxSizeMb w line ↔ Fits maxSizeMb w line := by
  obtain ⟨w', file', hWrite, hNext, hRolls⟩ := h.write line
  have hMax := h.limit
  have hSmall := h.small
  have hLength : (file.text ++ line.text).length = file.text.length + line.text.length :=
    List.length_append
  have hNumber := file.number.toNat_lt
  by_cases hLarge : maxSize maxSizeMb % 2 ^ 32 < (file.text ++ line.text).length
  · obtain ⟨hClosed, hEmpty, hSucc⟩ := (if_pos hLarge).mp hRolls
    constructor
    · rintro ⟨file₁, w₁, hFile, hWrite₁, hRight⟩
      cases h.fileOs.symm.trans hFile
      cases hWrite.symm.trans hWrite₁
      intro file₂ hIn _
      cases h.fileOs.symm.trans hIn
      by_cases hOver : maxSize maxSizeMb < (file.text ++ line.text).length
      · obtain ⟨-, -, next, hOpen, -, hNext₁⟩ := (if_pos hOver).mp hRight
        cases hNext.fileOs.symm.trans hOpen
        have hLess := file'.number.toNat_lt
        exact ⟨hOver, by omega⟩
      · obtain ⟨hSame, -⟩ := (if_neg hOver).mp hRight
        rw [hClosed] at hSame
        exact absurd hSame (List.cons_ne_self _ _)
    · intro hFits
      obtain ⟨hOver, hLess⟩ := hFits file h.fileOs hLarge
      refine ⟨file, w', h.fileOs, hWrite, (if_pos hOver).mpr ⟨hClosed, by omega, file', hNext.fileOs,
        hEmpty, ?_⟩⟩
      rw [hSucc, UInt32.toNat_add, UInt32.toNat_one, Nat.mod_eq_of_lt hLess]
  · obtain ⟨hClosed, hFile⟩ := (if_neg hLarge).mp hRolls
    refine iff_of_true ⟨file, w', h.fileOs, hWrite, (if_neg ?_).mpr ⟨hClosed, ?_⟩⟩ ?_
    · have hLe := Nat.mod_le (maxSize maxSizeMb) (2 ^ 32)
      omega
    · rw [hNext.fileOs, hFile]
    · intro file₁ hIn hOver
      cases h.fileOs.symm.trans hIn
      exact absurd hOver hLarge

/-- A size of less than 4096 MB fits as long as the numbers of the files do. -/
theorem Writes.along_fits (h : Writes maxSizeMb w file) (hFits : maxSizeMb.toNat < 4096)
    {lines : List DatedLine} (hLines : file.number.toNat + lines.length < 2 ^ 32) :
    Machine.Along step (Fits maxSizeMb) w lines := by
  induction lines generalizing w file with
  | nil => trivial
  | cons line lines ih =>
    rw [List.length_cons] at hLines
    obtain ⟨w', file', hWrite, hNext, hRolls⟩ := h.write line
    have hStep : w.step line = some (w', ()) := by rw [step, hWrite, Option.map_some]
    have hSame : maxSize maxSizeMb % 2 ^ 32 = maxSize maxSizeMb := by
      rw [maxSize]
      omega
    apply Machine.along_cons _ hStep
    · apply ih hNext
      split at hRolls
      · rw [hRolls.2.2, UInt32.toNat_add, UInt32.toNat_one]
        omega
      · rw [hRolls.2]
        dsimp only
        omega
    · intro file₁ hIn hLarge
      cases h.fileOs.symm.trans hIn
      rw [hSame] at hLarge
      exact ⟨hLarge, by omega⟩

/-- **Rolling**: all lines of a run roll right exactly if they all fit; and fewer than 2^32 lines
always roll right exactly for a size of less than 4096 MB. -/
theorem rolls_iff (filePath fileName date : String) (maxSizeMb : UInt32) :
    (∀ lines, Machine.Along step (RollsRight maxSizeMb)
        ((new filePath fileName maxSizeMb).fileInitialize date) lines ↔
      Machine.Along step (Fits maxSizeMb)
        ((new filePath fileName maxSizeMb).fileInitialize date) lines) ∧
    ((∀ lines : List DatedLine, lines.length < 2 ^ 32 →
        Machine.Along step (RollsRight maxSizeMb)
          ((new filePath fileName maxSizeMb).fileInitialize date) lines) ↔
      maxSizeMb.toNat < 4096) := by
  obtain ⟨file, hZero, hEmpty, hStart⟩ := writes_initialized filePath fileName date maxSizeMb
  have hIff : ∀ lines, Machine.Along step (RollsRight maxSizeMb)
      ((new filePath fileName maxSizeMb).fileInitialize date) lines ↔
        Machine.Along step (Fits maxSizeMb)
          ((new filePath fileName maxSizeMb).fileInitialize date) lines := by
    intro lines
    refine Machine.along_iff (I := fun w => ∃ file, Writes maxSizeMb w file) ?_ ?_ ⟨file, hStart⟩
    · rintro w line ⟨file, h⟩
      exact h.rollsRight_iff line
    · rintro w line w' out ⟨file, h⟩ - hStep
      obtain ⟨next, file', hWrite, hNext, -⟩ := h.write line
      rw [step, hWrite] at hStep
      cases hStep
      exact ⟨file', hNext⟩
  refine ⟨hIff, ?_⟩
  simp only [hIff]
  constructor
  · intro hAll
    by_contra hLarge
    -- one line just above the size that the writer notes
    let text : List UInt8 := List.replicate (maxSize maxSizeMb % 2 ^ 32 + 1) 10
    have hText : (file.text ++ text).length = maxSize maxSizeMb % 2 ^ 32 + 1 := by
      rw [hEmpty, List.nil_append, List.length_replicate]
    have hOne : [(⟨date, text⟩ : DatedLine)].length < 2 ^ 32 := by
      rw [List.length_singleton]
      decide
    have hOver := ((hAll [⟨date, text⟩] hOne).1 file hStart.fileOs (by dsimp only; omega)).1
    dsimp only at hOver
    rw [hText] at hOver
    have hHuge : 2 ^ 32 ≤ maxSize maxSizeMb := by
      rw [maxSize]
      omega
    omega
  · intro hFits lines hLines
    apply hStart.along_fits hFits
    rw [hZero, UInt32.toNat_zero]
    omega

/-- A writer for files of 4096 MB closes one after a single byte. -/
theorem not_rolls :
    ¬∀ (filePath fileName date : String) (maxSizeMb : UInt32) (lines : List DatedLine),
      Machine.Along step (RollsRight maxSizeMb)
        ((new filePath fileName maxSizeMb).fileInitialize date) lines := by
  intro h
  obtain ⟨file, w, hFile, hWrite, hRight⟩ := (h "" "" "" 4096 [⟨"", [10]⟩]).1
  cases hFile
  cases hWrite
  obtain ⟨hSame, -⟩ := (if_neg (by decide)).mp hRight
  exact absurd hSame (List.cons_ne_self _ _)

end NgLogFileWriter

end DemoCode.NanoLog
