import DemoCode.NanoLog.LogLine

/-! The writers of `eddid_log_writer.h`: one that writes lines into a file and goes on to the next file
when this one is large enough, and one that has such a writer for each level. -/

namespace DemoCode.NanoLog

/-- `get_level`: the byte behind a timestamp, a thread, two pointers and a line. -/
def LogLine.getLevel (l : LogLine) : Option (BitVec (8 * 1)) := readAt l.buffer (8 + 8 + 8 + 8 + 4) 1

/-- A file that a writer has opened, with the number in its name and what has been written to it. -/
structure LogFile where
  name : String
  number : UInt32
  text : List UInt8 := []
  deriving DecidableEq, Repr

/-- `NgLogFileWriter`; `closed` has the files that were closed in favour of a next one, the last one
first.  An offset in a file is a `streamoff`, so the difference of two of them does not overflow. -/
structure NgLogFileWriter where
  fileNumber : UInt32 := 0
  bytesWritten : Int := 0
  logFileMaxSize : UInt32
  fileName : String
  fileOs : Option LogFile := none
  closed : List LogFile := []
  deriving DecidableEq, Repr

namespace NgLogFileWriter

/-- The constructor. -/
def new (filePath fileName : String) (maxSizeMb : UInt32) : NgLogFileWriter where
  logFileMaxSize := maxSizeMb * 1024 * 1024
  fileName := filePath ++ fileName

/-- `RollFile`, on a day. -/
def rollFile (w : NgLogFileWriter) (date : String) : NgLogFileWriter :=
  { w with
    bytesWritten := 0
    fileNumber := w.fileNumber + 1
    fileOs := some
      { name := w.fileName ++ "_" ++ date ++ "_" ++ toString w.fileNumber ++ ".log"
        number := w.fileNumber }
    closed := w.fileOs.toList ++ w.closed }

/-- `Initialize`. -/
def fileInitialize (w : NgLogFileWriter) (date : String) : NgLogFileWriter := w.rollFile date

/-- `Write`, with what the line prints. -/
def write (w : NgLogFileWriter) (date : String) (text : List UInt8) : Option NgLogFileWriter :=
  match w.fileOs with
  | none => none
  | some file =>
    let pos : Int := file.text.length
    let file := { file with text := file.text ++ text }
    let w := { w with
      bytesWritten := w.bytesWritten + (file.text.length - pos)
      fileOs := some file }
    if w.bytesWritten > w.logFileMaxSize.toNat then
      some (w.rollFile date)
    else
      some w

end NgLogFileWriter

/-- The values of `ENU_LOG_LEVEL`, from `ELL_LOG_STDERR` to `ELL_LOG_DEBUG`. -/
def logLevels : List (BitVec (8 * 1)) := [0, 1, 2, 3, 4, 5, 6, 7, 8]

structure NgLogMultiFileWriter where
  logLevel : List (BitVec (8 * 1))
  fileWriter : List NgLogFileWriter
  deriving DecidableEq, Repr

namespace NgLogMultiFileWriter

/-- The constructor. -/
def new (logDirectory logFileName : String) (logFileRollSizeMb : UInt32) : NgLogMultiFileWriter where
  logLevel := logLevels
  fileWriter := logLevels.map fun level =>
    .new logDirectory (logFileName ++ "." ++ levelToString level) logFileRollSizeMb

/-- `GetFileWriter`, as the place of the writer. -/
def getFileWriter (m : NgLogMultiFileWriter) (level : BitVec (8 * 1)) : Option Nat :=
  (m.logLevel.take m.fileWriter.length).idxOf? level

/-- The place of the writer that `Write` hands a line to. -/
def handedTo (m : NgLogMultiFileWriter) (l : LogLine) : Option (Option Nat) :=
  l.getLevel.map m.getFileWriter

/-- `Write`. -/
def write (m : NgLogMultiFileWriter) (os : Stream) (date : String) (l : LogLine) :
    Option NgLogMultiFileWriter := do
  match ← m.handedTo l with
  | none => some m
  | some index =>
    let fileWriter ← m.fileWriter[index]?
    let (text, _) ← l.stringify os
    let fileWriter ← fileWriter.write date text
    some { m with fileWriter := m.fileWriter.set index fileWriter }

end NgLogMultiFileWriter

end DemoCode.NanoLog
