import Mathlib.Logic.Relation
import DemoCode.FileCrop.ColTask

/-! `SeparateFile` in `main.cpp`: it cuts a mapped file behind the line that each quarter of it ends
in, and the columns of the chunks are those of the file. -/

namespace DemoCode.FileCrop

open FeedProxy (wrap32 intMin intMax wrap32_lt wrap32_of_range)

/-- A sum of `int`s; there is none when it overflows. -/
def addInt (a b : Int) : Option Int := if intMin ≤ a + b ∧ a + b ≤ intMax then some (a + b) else none

/-- Where the loop stands: `pStart`, counted from the start of the map, and the chunks so far. -/
structure Split where
  pStart : Int
  finishedSize : Int
  res : List (Int × Int)

/-- `strchr` for a newline from a place in the map. -/
def findNewline (fileMap : List UInt8) (p : Int) : Option (Option Nat) :=
  if p < 0 then none else strchr newline (fileMap.drop p.toNat)

/-- The next chunk, which ends with the newline found `i` bytes behind the step. -/
def Split.push (stepSize : Int) (t : Split) (i : Nat) : Option Split := do
  let oneStepSize ← addInt (wrap32 (stepSize + i)) 1
  let finishedSize ← addInt t.finishedSize oneStepSize
  some {
    pStart := t.pStart + oneStepSize
    finishedSize
    res := t.res ++ [(t.pStart, oneStepSize)] }

/-- What is behind the last newline that was looked for. -/
def Split.last (fileSize : Int) (t : Split) : Option (List (Int × Int)) :=
  if t.finishedSize < fileSize then do
    let size ← addInt fileSize (-t.finishedSize)
    some (t.res ++ [(t.pStart, size)])
  else
    some t.res

/-- One pass of the loop; when no newline is found it only prints an error. -/
def separatePass (fileMap : List UInt8) (fileSize stepSize : Int) (t : Split) :
    Loop.Pass Split Unit (Option (List (Int × Int))) :=
  match addInt t.finishedSize stepSize with
  | none => .leave [] none
  | some sum =>
    if sum < fileSize then
      match findNewline fileMap (t.pStart + stepSize) with
      | none => .leave [] none
      | some none => .again [] t
      | some (some i) =>
        match t.push stepSize i with
        | none => .leave [] none
        | some t' => .again [] t'
    else
      .leave [] (t.last fileSize)

def taskCounts : Int := 4

/-- `SeparateFile`, given the size of the file as an `off_t`; nothing when it has not ended after so
many passes, and no chunks when it does something undefined. -/
def separateFile (fuel : Nat) (fileMap : List UInt8) (stSize : Nat) :
    Option (Option (List (Int × Int))) :=
  let fileSize := wrap32 stSize
  (Loop.run (separatePass fileMap fileSize (fileSize.tdiv taskCounts)) fuel ⟨0, 0, []⟩).map (·.2)

/-- A text file without NUL bytes that ends in a newline. -/
structure TextFile where
  bytes : List UInt8
  noNul : 0 ∉ bytes
  ends : bytes.getLast? = some newline

namespace TextFile

/-- The file in memory, with the zero bytes up to the end of its last page. -/
def map (file : TextFile) (padding : Nat) : List UInt8 := file.bytes ++ List.replicate padding 0

def size (file : TextFile) : Nat := file.bytes.length

/-- The task of a chunk. -/
def task (file : TextFile) (padding : Nat) (condition : List Char) (chunk : Int × Int) : ColTask where
  fileMap := (file.map padding).drop chunk.1.toNat
  fileSize := chunk.2.toNat
  condition

end TextFile

/-- The places and the sizes of consecutive chunks. -/
def place (start : Nat) : List (List UInt8) → List (Int × Int)
  | [] => []
  | c :: chunks => ((start : Int), (c.length : Int)) :: place (start + c.length) chunks

/-- The chunks are consecutive pieces of the file that cover it, each of whole lines. -/
def Chunked (file : TextFile) (res : List (Int × Int)) : Prop :=
  ∃ chunks : List (List UInt8), res = place 0 chunks ∧ chunks.flatten = file.bytes ∧
    ∀ c ∈ chunks, c.getLast? = some newline

/-- The file is split as it should be, and its chunks give the columns of the file. -/
def SplitsWell (file : TextFile) (padding : Nat) (condition : List Char) : Prop :=
  ∃ fuel res, separateFile fuel (file.map padding) file.size = some (some res) ∧
    res.length ≤ 4 ∧ Chunked file res ∧
    (res.mapM fun chunk => (file.task padding condition chunk).run).map List.flatten =
      (file.task padding condition (0, (file.size : Int))).run

/-! ### The chunks give the columns of the file -/

theorem wholeLines_of_chunk {file : TextFile} {before c after : List UInt8}
    (h : before ++ c ++ after = file.bytes) (hc : c.getLast? = some newline) : WholeLines c := by
  refine ⟨fun hIn => file.noNul ?_, .inr hc⟩
  rw [← h]
  exact List.mem_append_left _ (List.mem_append_right _ hIn)

/-- The lines of some chunks, from the place of the first one on. -/
theorem exec_chunks (file : TextFile) (padding : Nat) (condition : List Char)
    (before : List UInt8) {chunks : List (List UInt8)}
    (h : before ++ chunks.flatten = file.bytes) (hEnds : ∀ c ∈ chunks, c.getLast? = some newline)
    (out : List UInt8) :
    ((lineBody (file.task padding condition (0, (file.size : Int)))).exec
        ⟨before.length, chunks.flatten ++ List.replicate padding 0, out⟩).2 =
      ((place before.length chunks).mapM fun chunk => (file.task padding condition chunk).run).map
        fun outs => out ++ outs.flatten := by
  induction chunks generalizing before out with
  | nil =>
    have hSize : before.length = file.size := by
      rw [TextFile.size, ← h, List.flatten_nil, List.append_nil]
    have hLeave : (lineBody (file.task padding condition (0, (file.size : Int)))).pass
        ⟨before.length, List.replicate padding 0, out⟩ = .leave [] (some out) :=
      if_neg (by simp [TextFile.task, hSize])
    simp only [List.flatten_nil, List.nil_append, place]
    rw [Loop.Body.exec_leave _ hLeave]
    simp
  | cons c chunks ih =>
    have hc : c.getLast? = some newline := hEnds c List.mem_cons_self
    have hSplit : before ++ c ++ chunks.flatten = file.bytes := by
      rw [← h, List.flatten_cons, List.append_assoc]
    have hWhole := wholeLines_of_chunk hSplit hc
    have hSize : before.length + c.length ≤ file.size := by
      rw [TextFile.size, ← hSplit]
      simp only [List.length_append]
      omega
    let rest := chunks.flatten ++ List.replicate padding 0
    -- the task of the chunk starts at its first byte and counts from there
    have hMap : (file.map padding).drop before.length = c ++ rest := by
      rw [TextFile.map, ← hSplit, List.append_assoc, List.append_assoc, List.drop_left]
    have hChunk : ((lineBody { file.task padding condition (0, (file.size : Int)) with
          fileSize := before.length + c.length }).exec ⟨before.length, c ++ rest, out⟩).2 =
        (file.task padding condition ((before.length : Int), (c.length : Int))).run.map
          (out ++ ·) := by
      let task := file.task padding condition ((before.length : Int), (c.length : Int))
      have hShift := exec_shift task before.length ⟨0, c ++ rest, out⟩
      have hOut := exec_out task out ⟨0, c ++ rest, []⟩
      have hRun : task.run = ((lineBody task).exec ⟨0, c ++ rest, []⟩).2 := by
        rw [← hMap]
        rfl
      rw [List.append_nil] at hOut
      rw [hRun, ← hOut, ← hShift]
      rfl
    have hLater := ih (before ++ c) hSplit fun d hd => hEnds d (List.mem_cons_of_mem c hd)
    rw [List.length_append] at hLater
    rw [List.flatten_cons, List.append_assoc, exec_append _ hWhole rest (by simpa [TextFile.task]),
      hChunk, place, List.mapM_cons]
    cases (file.task padding condition ((before.length : Int), (c.length : Int))).run with
    | none => rfl
    | some bytes =>
      rw [Option.map_some, Option.bind_some, hLater]
      simp only [Option.bind_eq_bind, Option.bind_some]
      cases (place (before.length + c.length) chunks).mapM fun chunk =>
        (file.task padding condition chunk).run <;> simp

/-- However a file is cut into chunks of whole lines, their columns are those of the file. -/
theorem columns_of_chunks {file : TextFile} {res : List (Int × Int)} (h : Chunked file res)
    (padding : Nat) (condition : List Char) :
    (res.mapM fun chunk => (file.task padding condition chunk).run).map List.flatten =
      (file.task padding condition (0, (file.size : Int))).run := by
  obtain ⟨chunks, rfl, hAll, hEnds⟩ := h
  have hExec := exec_chunks file padding condition [] hAll hEnds []
  rw [hAll] at hExec
  exact hExec.symm

/-! ### Where a file is cut -/

/-- A step of the splitter. -/
def quarterOf (bytes : List UInt8) : Nat := bytes.length / 4

/-- From a place on a newline comes before any NUL byte. -/
def LineEnds (bytes : List UInt8) (n : Nat) : Prop := newline ∈ (bytes.drop n).takeWhile (· ≠ 0)

/-- The end of the line that the byte a step behind a cut is in. -/
def cutBehind (bytes : List UInt8) (cut : Nat) : Nat :=
  cut + quarterOf bytes + (bytes.drop (cut + quarterOf bytes)).idxOf newline + 1

/-- The cut after a cut: while a step from it stays inside of the file and finds the end of a line. -/
def NextCut (bytes : List UInt8) (cut cut' : Nat) : Prop :=
  cut + quarterOf bytes < bytes.length ∧ LineEnds bytes (cut + quarterOf bytes) ∧
    cut' = cutBehind bytes cut

/-- A step from a place fits into an `int`, and finds the end of a line while it is inside of the
file. -/
def StepFits (bytes : List UInt8) (cut : Nat) : Prop :=
  cut + quarterOf bytes < 2 ^ 31 ∧
    (cut + quarterOf bytes < bytes.length → LineEnds bytes (cut + quarterOf bytes))

section

variable {bytes : List UInt8} {cut : Nat} {t : Split} (padding : Nat)

theorem LineEnds.newline_mem {n : Nat} (h : LineEnds bytes n) : newline ∈ bytes.drop n :=
  (List.takeWhile_prefix _).subset h

theorem cutBehind_le (h : LineEnds bytes (cut + quarterOf bytes)) : cutBehind bytes cut ≤ bytes.length := by
  have hIdx := List.idxOf_lt_length_of_mem h.newline_mem
  rw [List.length_drop] at hIdx
  unfold cutBehind
  omega

theorem lt_cutBehind (bytes : List UInt8) (cut : Nat) : cut + quarterOf bytes < cutBehind bytes cut := by
  unfold cutBehind
  omega

/-- The text between a cut and the next one ends with a newline. -/
theorem getLast_to_cutBehind (h : LineEnds bytes (cut + quarterOf bytes)) :
    ((bytes.drop cut).take (cutBehind bytes cut - cut)).getLast? = some newline := by
  have hAt : bytes[cutBehind bytes cut - 1]? = some newline := by
    have hGet := List.getElem?_idxOf h.newline_mem
    rwa [List.getElem?_drop] at hGet
  have hBound := lt_cutBehind bytes cut
  rw [List.getLast?_take, if_neg (by omega), List.getElem?_drop]
  have hPlace : cut + (cutBehind bytes cut - cut - 1) = cutBehind bytes cut - 1 := by omega
  rw [hPlace, hAt]
  rfl

theorem findNewline_found {n : Nat} (h : LineEnds bytes n) :
    findNewline (bytes ++ List.replicate padding 0) n = some (some ((bytes.drop n).idxOf newline)) := by
  have hLt : n ≤ bytes.length := by
    by_contra hOut
    have hIn := h.newline_mem
    rw [List.drop_eq_nil_of_le (by omega)] at hIn
    cases hIn
  rw [findNewline, if_neg (by omega), Int.toNat_natCast, List.drop_append_of_le_length hLt]
  exact strchr_takeWhile _ h

theorem findNewline_missing {n : Nat} (hLt : n < bytes.length) (h : ¬LineEnds bytes n) (i : Nat) :
    findNewline (bytes ++ List.replicate padding 0) n ≠ some (some i) := by
  rw [findNewline, if_neg (by omega), Int.toNat_natCast, List.drop_append_of_le_length (Nat.le_of_lt hLt)]
  exact strchr_missing padding (by decide) h

end

/-- The splitter stands at a cut of the file. -/
structure AtCut (bytes : List UInt8) (cut : Nat) (t : Split) : Prop where
  pStart : t.pStart = cut
  finishedSize : t.finishedSize = cut
  le : cut ≤ bytes.length
  chunks : ∃ chunks : List (List UInt8), t.res = place 0 chunks ∧
    chunks.flatten = bytes.take cut ∧ (∀ c ∈ chunks, c.getLast? = some newline) ∧
    chunks.length * (quarterOf bytes + 1) ≤ cut ∧ chunks.length ≤ 3

/-- The chunks are consecutive pieces of the file that cover it. -/
def Tiles (bytes : List UInt8) (res : List (Int × Int)) : Prop :=
  ∃ chunks : List (List UInt8), res = place 0 chunks ∧ chunks.flatten = bytes

/-- At most four chunks cover a file, and each is of whole lines when the file is. -/
def Covers (bytes : List UInt8) (res : List (Int × Int)) : Prop :=
  ∃ chunks : List (List UInt8), res = place 0 chunks ∧ chunks.flatten = bytes ∧ chunks.length ≤ 4 ∧
    (bytes.getLast? = some newline → ∀ c ∈ chunks, c.getLast? = some newline)

theorem addInt_nat {a b : Nat} (h : a + b < 2 ^ 31) : addInt a b = some ((a + b : Nat) : Int) := by
  unfold addInt intMin intMax
  rw [if_pos (by omega)]
  rfl

theorem addInt_overflow {a b : Nat} (h : 2 ^ 31 ≤ a + b) : addInt a b = none := by
  unfold addInt intMin intMax
  rw [if_neg (by omega)]

theorem place_append (start : Nat) (chunks : List (List UInt8)) (c : List UInt8) :
    place start (chunks ++ [c]) =
      place start chunks ++ [(((start + chunks.flatten.length : Nat) : Int), (c.length : Int))] := by
  induction chunks generalizing start with
  | nil => simp [place]
  | cons d chunks ih =>
    rw [List.cons_append, place, ih, place, List.flatten_cons, List.length_append, List.cons_append,
      Nat.add_assoc]

theorem length_place (start : Nat) (chunks : List (List UInt8)) :
    (place start chunks).length = chunks.length := by
  induction chunks generalizing start with
  | nil => rfl
  | cons c chunks ih => rw [place, List.length_cons, ih, List.length_cons]

theorem AtCut.start (bytes : List UInt8) : AtCut bytes 0 ⟨0, 0, []⟩ :=
  ⟨rfl, rfl, Nat.zero_le _, [], rfl, by simp, by simp, by simp, by simp⟩

section

variable {bytes : List UInt8} {cut : Nat} {t : Split} (padding : Nat)

/-- Where a cut and a step from it do not fit into an `int`, the splitter adds them all the same. -/
theorem AtCut.pass_overflow (h : AtCut bytes cut t) (hBig : 2 ^ 31 ≤ cut + quarterOf bytes) :
    separatePass (bytes ++ List.replicate padding 0) bytes.length (quarterOf bytes) t =
      .leave [] none := by
  unfold separatePass
  rw [h.finishedSize, addInt_overflow hBig]

theorem separatePass_found {fileMap : List UInt8} {fileSize stepSize sum : Int} {t' : Split} {i : Nat}
    (hSum : addInt t.finishedSize stepSize = some sum) (hLt : sum < fileSize)
    (hFind : findNewline fileMap (t.pStart + stepSize) = some (some i))
    (hPush : t.push stepSize i = some t') :
    separatePass fileMap fileSize stepSize t = .again [] t' := by
  simp only [separatePass, hSum, if_pos hLt, hFind, hPush]

theorem separatePass_last {fileMap : List UInt8} {fileSize stepSize sum : Int}
    (hSum : addInt t.finishedSize stepSize = some sum) (hLt : ¬ sum < fileSize) :
    separatePass fileMap fileSize stepSize t = .leave [] (t.last fileSize) := by
  simp only [separatePass, hSum, if_neg hLt]

/-- When no line ends behind a step, the splitter goes on from where it is, or reads beyond the map. -/
theorem AtCut.pass_stuck (h : AtCut bytes cut t) (hFits : cut + quarterOf bytes < 2 ^ 31)
    (hIn : cut + quarterOf bytes < bytes.length) (hNot : ¬LineEnds bytes (cut + quarterOf bytes)) :
    separatePass (bytes ++ List.replicate padding 0) bytes.length (quarterOf bytes) t = .again [] t ∨
      separatePass (bytes ++ List.replicate padding 0) bytes.length (quarterOf bytes) t =
        .leave [] none := by
  have hSum : addInt (cut : Int) (quarterOf bytes : Int) = some ((cut + quarterOf bytes : Nat) : Int) :=
    addInt_nat hFits
  have hMissing := findNewline_missing padding hIn hNot
  rw [Int.natCast_add] at hMissing
  simp only [separatePass, h.finishedSize, hSum, h.pStart, if_pos (Int.ofNat_lt.mpr hIn)]
  rcases hFind : findNewline (bytes ++ List.replicate padding 0) ((cut : Int) + quarterOf bytes) with
    _ | _ | i
  · exact .inr rfl
  · exact .inl rfl
  · exact absurd hFind (hMissing i)

/-- When a step from the cut is inside of the file, the splitter goes on to the next cut. -/
theorem AtCut.pass_again (h : AtCut bytes cut t) (hSize : bytes.length < 2 ^ 31)
    (hIn : cut + quarterOf bytes < bytes.length) (hLine : LineEnds bytes (cut + quarterOf bytes)) :
    ∃ t', separatePass (bytes ++ List.replicate padding 0) bytes.length (quarterOf bytes) t =
      .again [] t' ∧ AtCut bytes (cutBehind bytes cut) t' := by
  have hNext := cutBehind_le hLine
  have hLt := lt_cutBehind bytes cut
  obtain ⟨chunks, hRes, hFlatten, hEnds, hLength, hFew⟩ := h.chunks
  have hFound := findNewline_found padding hLine
  obtain ⟨i, hi⟩ : ∃ i, i = (bytes.drop (cut + quarterOf bytes)).idxOf newline := ⟨_, rfl⟩
  obtain ⟨step, hStepEq⟩ : ∃ step, step = quarterOf bytes + i + 1 := ⟨_, rfl⟩
  have hStep : cutBehind bytes cut = cut + step := by
    rw [cutBehind, ← hi]
    omega
  let t' : Split :=
    { pStart := (cut : Int) + (step : Int)
      finishedSize := (cut + step : Nat)
      res := t.res ++ [((cut : Int), (step : Int))] }
  have hPush : t.push (quarterOf bytes) i = some t' := by
    have hWrap : wrap32 ((quarterOf bytes : Int) + i) = ((quarterOf bytes + i : Nat) : Int) := by
      rw [← Int.natCast_add]
      exact wrap32_of_range (by omega) (by omega)
    have hOne : addInt ((quarterOf bytes + i : Nat) : Int) 1 = some (step : Int) := by
      rw [hStepEq]
      exact addInt_nat (b := 1) (by omega)
    have hSum : addInt (cut : Int) (step : Int) = some ((cut + step : Nat) : Int) :=
      addInt_nat (by omega)
    unfold Split.push
    rw [hWrap, hOne, h.finishedSize, h.pStart]
    simp only [Option.bind_eq_bind, Option.bind_some, hSum, t']
  have hEnd : cut + step ≤ bytes.length := hStep ▸ hNext
  have hTake : ((bytes.drop cut).take step).length = step := by
    rw [List.length_take, List.length_drop]
    omega
  rw [hStep]
  refine ⟨t', ?_, (Int.natCast_add cut step).symm, rfl, hEnd,
    chunks ++ [(bytes.drop cut).take step], ?_, ?_, ?_, ?_, ?_⟩
  · have hSum : addInt (cut : Int) (quarterOf bytes : Int) = some ((cut + quarterOf bytes : Nat) : Int) :=
      addInt_nat (by omega)
    have hFind : findNewline (bytes ++ List.replicate padding 0) ((cut : Int) + quarterOf bytes) =
        some (some i) := by
      rw [← Int.natCast_add, hi]
      exact hFound
    rw [← h.finishedSize] at hSum
    rw [← h.pStart] at hFind
    exact separatePass_found hSum (Int.ofNat_lt.mpr hIn) hFind hPush
  · have hCut : chunks.flatten.length = cut := by
      rw [hFlatten, List.length_take]
      exact Nat.min_eq_left h.le
    rw [place_append, ← hRes, hTake, hCut, Nat.zero_add]
  · rw [List.flatten_append, hFlatten, List.flatten_singleton, List.take_add]
  · intro c hc
    rcases List.mem_append.mp hc with hOld | hNew
    · exact hEnds c hOld
    · have hText := getLast_to_cutBehind hLine
      rwa [hStep, Nat.add_sub_cancel_left, ← List.mem_singleton.mp hNew] at hText
  · rw [List.length_append, List.length_singleton, Nat.succ_mul]
    omega
  · -- three chunks leave less than a step
    rw [List.length_append, List.length_singleton]
    have hQuarter : bytes.length < 4 * quarterOf bytes + 4 := by
      unfold quarterOf
      omega
    by_contra hMany
    have hThree : chunks.length = 3 := by omega
    rw [hThree] at hLength
    omega

/-- When a step from the cut is outside of the file, the splitter ends with what is left. -/
theorem AtCut.pass_leave (h : AtCut bytes cut t) (hSize : bytes.length < 2 ^ 31)
    (hFits : cut + quarterOf bytes < 2 ^ 31) (hOut : bytes.length ≤ cut + quarterOf bytes) :
    ∃ res, separatePass (bytes ++ List.replicate padding 0) bytes.length (quarterOf bytes) t =
      .leave [] (some res) ∧ Covers bytes res := by
  obtain ⟨chunks, hRes, hFlatten, hEnds, hLength, hFew⟩ := h.chunks
  have hSum : addInt (cut : Int) (quarterOf bytes : Int) = some ((cut + quarterOf bytes : Nat) : Int) :=
    addInt_nat hFits
  have hPass : separatePass (bytes ++ List.replicate padding 0) bytes.length (quarterOf bytes) t =
      .leave [] (t.last bytes.length) := by
    rw [← h.finishedSize] at hSum
    exact separatePass_last hSum (by omega)
  have hLe := h.le
  by_cases hMore : cut < bytes.length
  · have hRest : addInt (bytes.length : Int) (-(cut : Int)) = some ((bytes.length - cut : Nat) : Int) := by
      unfold addInt intMin intMax
      rw [if_pos (by omega)]
      congr 1
      omega
    have hLast : t.last bytes.length =
        some (t.res ++ [((cut : Int), ((bytes.length - cut : Nat) : Int))]) := by
      unfold Split.last
      rw [h.finishedSize, if_pos (by omega), hRest, h.pStart]
      rfl
    refine ⟨_, hPass.trans (congrArg _ hLast), chunks ++ [bytes.drop cut], ?_, ?_, ?_, ?_⟩
    · have hCut : chunks.flatten.length = cut := by
        rw [hFlatten, List.length_take]
        exact Nat.min_eq_left h.le
      rw [place_append, ← hRes, hCut, Nat.zero_add, List.length_drop]
    · rw [List.flatten_append, hFlatten]
      simp
    · rw [List.length_append, List.length_singleton]
      omega
    · intro hText c hc
      rcases List.mem_append.mp hc with hOld | hNew
      · exact hEnds c hOld
      · rw [List.mem_singleton.mp hNew, List.getLast?_drop, if_neg (Nat.not_le.mpr hMore), hText]
  · have hLast : t.last bytes.length = some t.res := by
      unfold Split.last
      rw [h.finishedSize, if_neg (by omega)]
    refine ⟨_, hPass.trans (congrArg _ hLast), chunks, hRes, ?_, by omega, fun _ => hEnds⟩
    rw [hFlatten]
    exact List.take_of_length_le (Nat.not_lt.mp hMore)

/-- A splitter that ends with chunks has made a step that fits from every cut. -/
theorem AtCut.fits_of_run (h : AtCut bytes cut t) (hSize : bytes.length < 2 ^ 31) {fuel : Nat}
    {evs : List Unit} {res : List (Int × Int)} (hRun : Loop.run
      (separatePass (bytes ++ List.replicate padding 0) bytes.length (quarterOf bytes)) fuel t =
        some (evs, some res)) :
    ∀ cut', Relation.ReflTransGen (NextCut bytes) cut cut' → StepFits bytes cut' := by
  induction fuel generalizing cut t evs with
  | zero => cases hRun
  | succ fuel ih =>
    rw [Loop.run] at hRun
    have hFits : cut + quarterOf bytes < 2 ^ 31 := by
      by_contra hBig
      rw [h.pass_overflow padding (Nat.not_lt.mp hBig)] at hRun
      cases hRun
    by_cases hIn : cut + quarterOf bytes < bytes.length
    · by_cases hLine : LineEnds bytes (cut + quarterOf bytes)
      · obtain ⟨t', hPass, hNext⟩ := h.pass_again padding hSize hIn hLine
        rw [hPass] at hRun
        obtain ⟨⟨evs', r⟩, hLater, hEq⟩ := Option.map_eq_some_iff.mp hRun
        obtain ⟨-, rfl⟩ := Prod.mk.inj hEq
        intro cut' hCut'
        rcases Relation.ReflTransGen.cases_head hCut' with rfl | ⟨mid, ⟨-, -, rfl⟩, hMid⟩
        · exact ⟨hFits, fun _ => hLine⟩
        · exact ih hNext hLater cut' hMid
      · rcases h.pass_stuck padding hFits hIn hLine with hPass | hPass
        · -- the splitter is where it was
          rw [hPass] at hRun
          obtain ⟨⟨evs', r⟩, hLater, hEq⟩ := Option.map_eq_some_iff.mp hRun
          obtain ⟨-, rfl⟩ := Prod.mk.inj hEq
          exact ih h hLater
        · rw [hPass] at hRun
          cases hRun
    · intro cut' hCut'
      rcases Relation.ReflTransGen.cases_head hCut' with rfl | ⟨mid, ⟨hInside, -⟩, -⟩
      · exact ⟨hFits, fun hInside => absurd hInside hIn⟩
      · exact absurd hInside hIn

/-- Where a step from every cut fits, the splitter ends with chunks that cover the file. -/
theorem AtCut.run_of_fits (h : AtCut bytes cut t) (hSize : bytes.length < 2 ^ 31)
    (hAll : ∀ cut', Relation.ReflTransGen (NextCut bytes) cut cut' → StepFits bytes cut') :
    ∃ fuel evs res, Loop.run
      (separatePass (bytes ++ List.replicate padding 0) bytes.length (quarterOf bytes)) fuel t =
        some (evs, some res) ∧ Covers bytes res := by
  induction hn : bytes.length - cut using Nat.strongRecOn generalizing cut t with
  | ind n ih =>
    obtain ⟨hFits, hLine⟩ := hAll cut .refl
    by_cases hIn : cut + quarterOf bytes < bytes.length
    · obtain ⟨t', hPass, hNext⟩ := h.pass_again padding hSize hIn (hLine hIn)
      have hLt := lt_cutBehind bytes cut
      obtain ⟨fuel, evs, res, hRun, hCovers⟩ := ih (bytes.length - cutBehind bytes cut) (by omega) hNext
        (fun cut' hCut' => hAll cut' (.head ⟨hIn, hLine hIn, rfl⟩ hCut')) rfl
      refine ⟨fuel + 1, evs, res, ?_, hCovers⟩
      rw [Loop.run, hPass]
      dsimp only
      rw [hRun]
      rfl
    · obtain ⟨res, hPass, hCovers⟩ := h.pass_leave padding hSize hFits (Nat.not_lt.mp hIn)
      exact ⟨1, [], res, by rw [Loop.run, hPass], hCovers⟩

end

/-! ### Where a text is cut -/

namespace TextFile

/-- A step of the splitter. -/
def quarter (file : TextFile) : Nat := file.size / 4

/-- The end of the line that the byte a step behind a cut is in. -/
def nextCut (file : TextFile) (cut : Nat) : Nat :=
  cut + file.quarter + (file.bytes.drop (cut + file.quarter)).idxOf newline + 1

/-- The cut after a cut: while a step from it stays inside of the file. -/
def CutAfter (file : TextFile) (cut cut' : Nat) : Prop :=
  cut + file.quarter < file.size ∧ cut' = file.nextCut cut

/-- A place where the file is cut, or its start. -/
def Cut (file : TextFile) : Nat → Prop := Relation.ReflTransGen file.CutAfter 0

theorem newline_mem (file : TextFile) {n : Nat} (h : n < file.size) :
    newline ∈ file.bytes.drop n := by
  have hLast : (file.bytes.drop n).getLast? = some newline := by
    have hNot : ¬ file.bytes.length ≤ n := Nat.not_le.mpr h
    rw [List.getLast?_drop, if_neg hNot, file.ends]
  exact List.mem_of_mem_getLast? hLast

/-- In a text every step inside of it finds the end of a line. -/
theorem lineEnds (file : TextFile) {n : Nat} (h : n < file.size) : LineEnds file.bytes n := by
  have hAll : (file.bytes.drop n).takeWhile (· ≠ 0) = file.bytes.drop n := by
    rw [List.takeWhile_eq_self_iff]
    intro b hIn
    exact decide_eq_true fun h0 => file.noNul (h0 ▸ List.mem_of_mem_drop hIn)
  rw [LineEnds, hAll]
  exact file.newline_mem h

theorem nextCut_iff (file : TextFile) : NextCut file.bytes = file.CutAfter := by
  funext cut cut'
  exact propext ⟨fun h => ⟨h.1, h.2.2⟩, fun h => ⟨h.1, file.lineEnds h.1, h.2⟩⟩

theorem stepFits_iff (file : TextFile) (cut : Nat) :
    StepFits file.bytes cut ↔ cut + file.quarter < 2 ^ 31 :=
  ⟨And.left, fun h => ⟨h, file.lineEnds⟩⟩

theorem chunked_of_covers (file : TextFile) {res : List (Int × Int)} (h : Covers file.bytes res) :
    res.length ≤ 4 ∧ Chunked file res := by
  obtain ⟨chunks, rfl, hAll, hFew, hEnds⟩ := h
  exact ⟨(length_place 0 chunks).le.trans hFew, chunks, rfl, hAll, hEnds file.ends⟩

end TextFile

variable {t : Split}

/-! ### Files that are too large -/

theorem addInt_eq {a b c : Int} (h : addInt a b = some c) : c = a + b ∧ c < 2 ^ 31 := by
  unfold addInt intMin intMax at h
  split at h
  · cases h
    omega
  · cases h

/-- The chunks so far add up to an `int`. -/
def Split.Sums (t : Split) : Prop :=
  (t.res.map Prod.snd).sum = t.finishedSize ∧ t.finishedSize < 2 ^ 31

theorem push_sums {stepSize : Int} {t' : Split} {i : Nat} (h : t.push stepSize i = some t')
    (hSums : t.Sums) : t'.Sums := by
  simp only [Split.push, Option.bind_eq_bind, Option.bind_eq_some_iff, Option.some.injEq] at h
  obtain ⟨size, -, finishedSize, hSum, rfl⟩ := h
  obtain ⟨hEq, hLt⟩ := addInt_eq hSum
  refine ⟨?_, hLt⟩
  rw [List.map_append, List.sum_append, hSums.1, hEq]
  simp

theorem last_sums {fileSize : Int} (hInt : fileSize < 2 ^ 31) {res : List (Int × Int)}
    (h : t.last fileSize = some res) (hSums : t.Sums) : (res.map Prod.snd).sum < 2 ^ 31 := by
  unfold Split.last at h
  split at h
  · obtain ⟨size, hSize, hRes⟩ := Option.bind_eq_some_iff.mp h
    obtain rfl := Option.some.inj hRes
    have hEq := (addInt_eq hSize).1
    rw [List.map_append, List.sum_append, hSums.1, hEq]
    simp only [List.map_cons, List.map_nil, List.sum_cons, List.sum_nil]
    omega
  · cases h
    rw [hSums.1]
    exact hSums.2

/-- The chunks never add up to more than an `int` can hold. -/
theorem run_sum_lt {fileMap : List UInt8} {fileSize stepSize : Int} (hInt : fileSize < 2 ^ 31)
    {fuel : Nat} {evs : List Unit} {res : List (Int × Int)} (hSums : t.Sums)
    (h : Loop.run (separatePass fileMap fileSize stepSize) fuel t = some (evs, some res)) :
    (res.map Prod.snd).sum < 2 ^ 31 := by
  induction fuel generalizing t evs with
  | zero => cases h
  | succ fuel ih =>
    rw [Loop.run] at h
    have hLater : ∀ {t'}, t'.Sums → separatePass fileMap fileSize stepSize t = .again [] t' →
        (res.map Prod.snd).sum < 2 ^ 31 := by
      intro t' hSums' hPass
      rw [hPass] at h
      obtain ⟨⟨evs', r⟩, hRun, hEq⟩ := Option.map_eq_some_iff.mp h
      obtain ⟨-, rfl⟩ := Prod.mk.inj hEq
      exact ih hSums' hRun
    cases hSum : addInt t.finishedSize stepSize with
    | none =>
      simp only [separatePass, hSum] at h
      cases h
    | some sum =>
      by_cases hLt : sum < fileSize
      · cases hFind : findNewline fileMap (t.pStart + stepSize) with
        | none =>
          simp only [separatePass, hSum, if_pos hLt, hFind] at h
          cases h
        | some found =>
          cases found with
          | none =>
            exact hLater hSums (by simp only [separatePass, hSum, if_pos hLt, hFind])
          | some i =>
            cases hPush : t.push stepSize i with
            | none =>
              simp only [separatePass, hSum, if_pos hLt, hFind, hPush] at h
              cases h
            | some t' =>
              exact hLater (push_sums hPush hSums) (separatePass_found hSum hLt hFind hPush)
      · rw [separatePass_last hSum hLt] at h
        exact last_sums hInt (Prod.mk.inj (Option.some.inj h)).2 hSums

theorem sum_place (start : Nat) (chunks : List (List UInt8)) :
    ((place start chunks).map Prod.snd).sum = (chunks.flatten.length : Int) := by
  induction chunks generalizing start with
  | nil => rfl
  | cons c chunks ih =>
    rw [place, List.map_cons, List.sum_cons, ih, List.flatten_cons, List.length_append,
      Int.natCast_add]

/-- A file of 2 GiB or more is not covered. -/
theorem not_tiles_of_large {bytes fileMap : List UInt8} (hLarge : 2 ^ 31 ≤ bytes.length) {fuel : Nat}
    {res : List (Int × Int)} (hRun : separateFile fuel fileMap bytes.length = some (some res)) :
    ¬Tiles bytes res := by
  rintro ⟨chunks, rfl, hAll⟩
  obtain ⟨⟨evs, r⟩, hLoop, hRes⟩ := Option.map_eq_some_iff.mp hRun
  obtain rfl : r = some (place 0 chunks) := hRes
  have hLt := run_sum_lt (wrap32_lt _) (t := ⟨0, 0, []⟩) ⟨rfl, by decide⟩ hLoop
  rw [sum_place, hAll] at hLt
  omega

theorem not_splitsWell_of_large {file : TextFile} (hLarge : 2 ^ 31 ≤ file.size) (padding : Nat)
    (condition : List Char) : ¬ SplitsWell file padding condition := by
  rintro ⟨fuel, res, hRun, -, ⟨chunks, hRes, hAll, -⟩, -⟩
  exact not_tiles_of_large hLarge hRun ⟨chunks, hRes, hAll⟩

/-- Splitting a file does not change its columns, exactly when the file is smaller than 2 GiB and a
quarter of it added to any of the cuts still fits into an `int`. -/
theorem splitsWell_iff (file : TextFile) (padding : Nat) (condition : List Char) :
    SplitsWell file padding condition ↔
      file.size < 2 ^ 31 ∧ ∀ cut, file.Cut cut → cut + file.quarter < 2 ^ 31 := by
  by_cases hSize : file.size < 2 ^ 31
  · have hWrap : wrap32 (file.size : Int) = file.size := wrap32_of_range (by omega) (by omega)
    have hStep : (file.size : Int).tdiv taskCounts = file.quarter := Int.ofNat_tdiv file.size 4
    have hFits : (∀ cut, Relation.ReflTransGen (NextCut file.bytes) 0 cut → StepFits file.bytes cut) ↔
        ∀ cut, file.Cut cut → cut + file.quarter < 2 ^ 31 := by
      simp only [file.nextCut_iff, file.stepFits_iff, TextFile.Cut]
    constructor
    · rintro ⟨fuel, res, hRun, -⟩
      obtain ⟨⟨evs, r⟩, hLoop, hRes⟩ := Option.map_eq_some_iff.mp hRun
      obtain rfl : r = some res := hRes
      rw [hWrap, hStep] at hLoop
      exact ⟨hSize, hFits.mp ((AtCut.start file.bytes).fits_of_run padding hSize hLoop)⟩
    · rintro ⟨-, hCuts⟩
      obtain ⟨fuel, evs, res, hLoop, hCovers⟩ :=
        (AtCut.start file.bytes).run_of_fits padding hSize (hFits.mpr hCuts)
      obtain ⟨hFew, hChunked⟩ := file.chunked_of_covers hCovers
      refine ⟨fuel, res, ?_, hFew, hChunked, columns_of_chunks hChunked padding condition⟩
      have hRun : Loop.run (separatePass (file.map padding) file.size file.quarter) fuel ⟨0, 0, []⟩ =
          some (evs, some res) := hLoop
      unfold separateFile
      rw [hWrap]
      dsimp only
      rw [hStep, hRun]
      rfl
  · constructor
    · exact fun h => absurd h (not_splitsWell_of_large (Nat.not_lt.mp hSize) padding condition)
    · exact fun h => absurd h.1 hSize

/-- A file of empty lines. -/
def emptyLines (n : Nat) : TextFile where
  bytes := List.replicate (n + 1) newline
  noNul := by simp [newline]
  ends := by simp [List.getLast?_replicate]

/-- The size of a file of 2 GiB is a negative `int`. -/
theorem not_splitsWell_emptyLines : ¬ SplitsWell (emptyLines (2 ^ 31 - 1)) 0 ['1'] := by
  have hSize : (emptyLines (2 ^ 31 - 1)).size = 2 ^ 31 := List.length_replicate
  exact not_splitsWell_of_large (Nat.le_of_eq hSize.symm) 0 ['1']

/-! ### Files of any bytes -/

/-- The splitter ends, and its chunks are consecutive and cover the file. -/
def SplitEnds (bytes : List UInt8) (padding : Nat) : Prop :=
  ∃ fuel res, separateFile fuel (bytes ++ List.replicate padding 0) bytes.length = some (some res) ∧
    Tiles bytes res

/-- Splitting a file of any bytes ends with chunks that cover it, exactly when the file is smaller than
2 GiB and a step from every cut fits into an `int` and, inside of the file, finds the end of a line
before any NUL byte. -/
theorem splitEnds_iff (bytes : List UInt8) (padding : Nat) :
    SplitEnds bytes padding ↔
      bytes.length < 2 ^ 31 ∧ ∀ cut, Relation.ReflTransGen (NextCut bytes) 0 cut → StepFits bytes cut := by
  by_cases hSize : bytes.length < 2 ^ 31
  · have hWrap : wrap32 (bytes.length : Int) = bytes.length := wrap32_of_range (by omega) (by omega)
    have hStep : (bytes.length : Int).tdiv taskCounts = quarterOf bytes := Int.ofNat_tdiv bytes.length 4
    constructor
    · rintro ⟨fuel, res, hRun, -⟩
      obtain ⟨⟨evs, r⟩, hLoop, hRes⟩ := Option.map_eq_some_iff.mp hRun
      obtain rfl : r = some res := hRes
      rw [hWrap, hStep] at hLoop
      exact ⟨hSize, (AtCut.start bytes).fits_of_run padding hSize hLoop⟩
    · rintro ⟨-, hCuts⟩
      obtain ⟨fuel, evs, res, hLoop, chunks, hRes, hAll, -⟩ :=
        (AtCut.start bytes).run_of_fits padding hSize hCuts
      refine ⟨fuel, res, ?_, chunks, hRes, hAll⟩
      unfold separateFile
      rw [hWrap]
      dsimp only
      rw [hStep, hLoop]
      rfl
  · constructor
    · rintro ⟨fuel, res, hRun, hTiles⟩
      exact absurd hTiles (not_tiles_of_large (Nat.not_lt.mp hSize) hRun)
    · exact fun h => absurd h.1 hSize

/-- In a file of four bytes without a newline the splitter stays at the first one. -/
theorem not_splitEnds_noNewline : ¬SplitEnds [97, 98, 99, 100] 4092 := by
  have hPass : separatePass ([97, 98, 99, 100] ++ List.replicate 4092 0) 4 1 ⟨0, 0, []⟩ =
      .again [] ⟨0, 0, []⟩ := rfl
  rintro ⟨fuel, res, hRun, -⟩
  have hEnds : Loop.Ends (separatePass ([97, 98, 99, 100] ++ List.replicate 4092 0) 4 1) ⟨0, 0, []⟩
      (some res) := ⟨fuel, hRun⟩
  exact Loop.not_ends (I := fun t => t = ⟨0, 0, []⟩) (fun hStart => ⟨[], _, hStart ▸ hPass, rfl⟩) rfl hEnds

end DemoCode.FileCrop
