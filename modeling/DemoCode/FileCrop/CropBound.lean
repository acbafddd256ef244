import Mathlib.Algebra.BigOperators.Group.Finset.Basic
import Mathlib.Algebra.GroupWithZero.Nat
import DemoCode.FileCrop.Columns

/-! How many bytes `ColTask::Run` copies into its buffer, which has the size of the chunk.  A column that
is copied more than once takes the place of one that is left out. -/

namespace DemoCode.FileCrop

open Delimited

/-! ### The bytes of a line -/

/-- The bytes of a field, counted from 0, with the byte behind it. -/
def fieldSize (fs : List (List UInt8)) (k : Nat) : Nat := (fs.getD k []).length + 1

/-- How often a field of a line of `n` fields is copied. -/
def copies (conds : List (Nat × Nat)) (n k : Nat) : Nat :=
  (conds.takeWhile (counts n)).countP (fun c => c.1 - 1 ≤ k ∧ k < c.2) +
    if conds.dropWhile (counts n) = [] then 0 else 1

/-- The bytes of the fields that are copied again. -/
def copiedAgain (conds : List (Nat × Nat)) (fs : List (List UInt8)) : Nat :=
  ∑ k ∈ Finset.range fs.length, (copies conds fs.length k - 1) * fieldSize fs k

/-- The bytes of the fields that are not copied. -/
def leftOut (conds : List (Nat × Nat)) (fs : List (List UInt8)) : Nat :=
  ∑ k ∈ Finset.range fs.length, if copies conds fs.length k = 0 then fieldSize fs k else 0

variable {d : UInt8}

theorem length_ended_part (fs : List (List UInt8)) (a b : Nat) :
    (ended d ((fs.take b).drop a)).length =
      ∑ k ∈ Finset.range fs.length, if a ≤ k ∧ k < b then fieldSize fs k else 0 := by
  induction fs generalizing a b with
  | nil => simp
  | cons f fs ih =>
    rw [List.length_cons, Finset.sum_range_succ']
    cases b with
    | zero => simp
    | succ b =>
      have hRest (a : Nat) : (∑ k ∈ Finset.range fs.length,
          if a ≤ k + 1 ∧ k + 1 < b + 1 then fieldSize (f :: fs) (k + 1) else 0) =
            (ended d ((fs.take b).drop (a - 1))).length := by
        rw [ih]
        apply Finset.sum_congr rfl
        intro k _
        apply if_congr _ rfl rfl
        omega
      rw [hRest, List.take_succ_cons]
      cases a with
      | zero =>
        rw [List.drop_zero, ended_cons, List.length_append, List.length_cons,
          if_pos ⟨Nat.le_refl 0, Nat.succ_pos b⟩]
        simp [fieldSize]
        omega
      | succ a =>
        rw [List.drop_succ_cons, if_neg (by omega)]
        rfl

theorem length_ended_selected (conds : List (Nat × Nat)) (fs : List (List UInt8)) :
    (ended d (selected conds fs)).length = ∑ k ∈ Finset.range fs.length,
      conds.countP (fun c => c.1 - 1 ≤ k ∧ k < c.2) * fieldSize fs k := by
  induction conds with
  | nil => simp [selected]
  | cons c conds ih =>
    have hHere : (ended d (fieldRange c fs)).length = _ := length_ended_part fs (c.1 - 1) c.2
    rw [selected, List.flatMap_cons, ended_append, List.length_append, ← selected, ih, hHere,
      ← Finset.sum_add_distrib]
    apply Finset.sum_congr rfl
    intro k _
    rw [List.countP_cons, Nat.add_mul, Nat.add_comm]
    simp

theorem length_ended_all (fs : List (List UInt8)) :
    (ended d fs).length = ∑ k ∈ Finset.range fs.length, fieldSize fs k := by
  have hAll := length_ended_part (d := d) fs 0 fs.length
  rw [List.take_length, List.drop_zero] at hAll
  rw [hAll]
  apply Finset.sum_congr rfl
  intro k hk
  exact if_pos ⟨Nat.zero_le k, Finset.mem_range.mp hk⟩

theorem length_ended_written (conds : List (Nat × Nat)) (fs : List (List UInt8)) :
    (ended d (written conds fs)).length =
      ∑ k ∈ Finset.range fs.length, copies conds fs.length k * fieldSize fs k := by
  have hLine : (ended d (if conds.dropWhile (counts fs.length) = [] then [] else fs)).length =
      ∑ k ∈ Finset.range fs.length,
        (if conds.dropWhile (counts fs.length) = [] then 0 else 1) * fieldSize fs k := by
    split
    · simp
    · simp [length_ended_all]
  rw [written, ended_append, List.length_append, length_ended_selected, hLine,
    ← Finset.sum_add_distrib]
  apply Finset.sum_congr rfl
  intro k _
  rw [copies, Nat.add_mul]

/-- A line is longer than what is written for it by the fields that are left out, and shorter by those
that are copied again. -/
theorem length_written (conds : List (Nat × Nat)) (fs : List (List UInt8)) :
    (ended d (written conds fs)).length + leftOut conds fs =
      (ended d fs).length + copiedAgain conds fs := by
  rw [length_ended_written, length_ended_all, leftOut, copiedAgain, ← Finset.sum_add_distrib,
    ← Finset.sum_add_distrib]
  apply Finset.sum_congr rfl
  intro k _
  cases copies conds fs.length k with
  | zero => simp
  | succ n =>
    rw [if_neg (Nat.succ_ne_zero n), Nat.add_sub_cancel, Nat.succ_mul]
    omega

/-! ### The bytes of a chunk -/

variable {delimiter : UInt8}

/-- The lines that are done, with `rest` behind the chunk: those in front of a NUL that have a delimiter
or a NUL behind them. -/
def doneLines (rest : List UInt8) : List (Line delimiter) → List (Line delimiter)
  | [] => []
  | l :: lines =>
    let behind := tableText lines ++ rest
    if 0 ∉ l.text ∧ (delimiter ∈ behind ∨ 0 ∈ behind) then l :: doneLines rest lines else []

theorem doneLines_prefix (rest : List UInt8) (lines : List (Line delimiter)) :
    doneLines rest lines <+: lines := by
  induction lines with
  | nil => exact List.nil_prefix
  | cons l lines ih =>
    rw [doneLines]
    split
    · exact List.prefix_cons_inj l |>.mpr ih
    · exact List.nil_prefix

/-- What is written for a line. -/
def lineWritten (condition : List Char) (l : Line delimiter) : List UInt8 :=
  lineText delimiter (written (conditionVec [] condition) l.fields)

/-- The bytes that are copied by any pass stay within a bound when those of all lines that are done
do. -/
theorem reaches_length_iff (task : ColTask) (lines : List (Line task.delimiter)) {pos : Nat}
    {rest out : List UInt8} (hSize : pos + (tableText lines).length = task.fileSize) (bound : Nat) :
    (∀ t, Loop.Reaches (lineBody task).pass ⟨pos, tableText lines ++ rest, out⟩ t →
      t.out.length ≤ bound) ↔
    out.length + ((doneLines rest lines).flatMap (lineWritten task.condition)).length ≤ bound := by
  induction lines generalizing pos out with
  | nil =>
    have hLeave : (lineBody task).pass ⟨pos, rest, out⟩ = .leave [] (some out) :=
      if_neg (by rw [← hSize]; exact Nat.lt_irrefl pos)
    exact Loop.forall_reaches_leave hLeave
  | cons l lines ih =>
    rw [tableText_cons, List.length_append, List.length_cons] at hSize
    have hPos : pos < task.fileSize := by omega
    have hLine := congrFun (linePass_lines task)
      ⟨pos, l.text ++ newline :: (tableText lines ++ rest), out⟩
    rw [linesPass_line l.newline_notMem hPos] at hLine
    rw [tableText_cons, List.append_assoc, List.cons_append, doneLines]
    by_cases hNul : 0 ∈ l.text
    · rw [if_pos hNul] at hLine
      rw [if_neg fun h => h.1 hNul, Loop.forall_reaches_leave hLine]
      rfl
    · rw [if_neg hNul, lineOut_line task l hNul] at hLine
      rw [if_congr (and_congr_right fun _ => strchr_isSome.symm) rfl rfl]
      cases hFound : strchr task.delimiter (tableText lines ++ rest) with
      | none =>
        rw [hFound] at hLine
        rw [if_neg fun h => Bool.false_ne_true h.2, Loop.forall_reaches_leave hLine]
        rfl
      | some r =>
        have hSizeRest : pos + (l.text.length + 1) + (tableText lines).length = task.fileSize := by
          omega
        rw [hFound] at hLine
        rw [if_pos ⟨hNul, rfl⟩, Loop.forall_reaches_again hLine, ih hSizeRest, List.flatMap_cons,
          List.length_append, List.length_append]
        show out.length ≤ bound ∧ out.length + (lineWritten task.condition l).length + _ ≤ bound ↔ _
        omega

theorem length_lineWritten (condition : List Char) (l : Line delimiter) :
    (lineWritten condition l).length + leftOut (conditionVec [] condition) l.fields =
      l.text.length + 1 + copiedAgain (conditionVec [] condition) l.fields := by
  have hWritten := written_ne_nil (conditionVec_ne_nil [] condition) l.some
  have hOut := congrArg List.length (joined_end (d := delimiter) hWritten)
  have hIn := congrArg List.length (joined_end (d := delimiter) l.some)
  have hBytes := length_written (d := delimiter) (conditionVec [] condition) l.fields
  rw [← hOut, ← hIn] at hBytes
  rw [List.length_append, List.length_append] at hBytes
  rw [lineWritten, lineText, List.length_append]
  exact hBytes

theorem length_linesWritten (condition : List Char) (lines : List (Line delimiter)) :
    (lines.flatMap (lineWritten condition)).length +
        (lines.map fun l => leftOut (conditionVec [] condition) l.fields).sum =
      (tableText lines).length +
        (lines.map fun l => copiedAgain (conditionVec [] condition) l.fields).sum := by
  induction lines with
  | nil => rfl
  | cons l lines ih =>
    have hLine := length_lineWritten condition l
    rw [List.flatMap_cons, tableText_cons]
    simp only [List.length_append, List.length_cons, List.map_cons, List.sum_cons]
    omega

end DemoCode.FileCrop
