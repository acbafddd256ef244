import Mathlib.Algebra.BigOperators.Group.List.Basic
import DemoCode.FileCrop.Table

/-! What `ColTask::Run` writes for a chunk of whole lines, and how much.  A range of columns counts for a
line when it ends in front of the last field; the first range that does not count copies the line and
ends it. -/

namespace DemoCode.FileCrop

open Delimited

/-! ### The ranges of a condition -/

/-- The fields from one to another, counted from 1. -/
def fieldRange (c : Nat × Nat) (fs : List (List UInt8)) : List (List UInt8) :=
  (fs.take c.2).drop (c.1 - 1)

/-- The fields of each range in turn. -/
def selected (conds : List (Nat × Nat)) (fs : List (List UInt8)) : List (List UInt8) :=
  conds.flatMap (fieldRange · fs)

/-- A range that counts for a line of `n` fields. -/
def counts (n : Nat) (c : Nat × Nat) : Bool := c.1 < n ∧ c.2 < n ∧ 1 ≤ c.1 ∧ c.1 ≤ c.2

/-- The fields that are written for a line. -/
def written (conds : List (Nat × Nat)) (fs : List (List UInt8)) : List (List UInt8) :=
  selected (conds.takeWhile (counts fs.length)) fs ++
    if conds.dropWhile (counts fs.length) = [] then [] else fs

/-! ### The fields of a line -/

/-- The places of some fields, with the size of the line up to the end of each. -/
def places (start : Nat) : List (List UInt8) → List (Nat × Nat)
  | [] => []
  | f :: fs => (start, start + f.length + 1) :: places (start + f.length + 1) fs

@[simp] theorem length_places (start : Nat) (fs : List (List UInt8)) :
    (places start fs).length = fs.length := by
  induction fs generalizing start with
  | nil => rfl
  | cons f fs ih => rw [places, List.length_cons, List.length_cons, ih]

theorem places_getD (d : UInt8) {fs : List (List UInt8)} {j : Nat} (hj : j < fs.length)
    (start : Nat) : (places start fs).getD j (0, 0) =
      (start + (ended d (fs.take j)).length, start + (ended d (fs.take (j + 1))).length) := by
  induction fs generalizing start j with
  | nil => cases hj
  | cons f fs ih =>
    rw [places]
    cases j with
    | zero => simp [Nat.add_assoc]
    | succ j =>
      rw [List.getD_cons_succ, ih (Nat.lt_of_succ_lt_succ hj)]
      simp only [List.take_succ_cons, ended_cons, List.length_append, List.length_cons]
      rw [Prod.mk.injEq]
      exact ⟨by omega, by omega⟩

variable {delimiter : UInt8}

/-- A field with a delimiter behind it in the line. -/
theorem fieldPass_next {f : List UInt8} (hDelimiter : delimiter ∉ f) (hNul : 0 ∉ f)
    (pre line : List UInt8) {lineSize : Nat} (hInside : pre.length + f.length + 1 < lineSize)
    (res : List (Nat × Nat)) :
    fieldPass delimiter (pre ++ (f ++ delimiter :: line)) lineSize ⟨pre.length, pre.length, res⟩ =
      .again [] ⟨pre.length + f.length + 1, pre.length + f.length + 1,
        res ++ [(pre.length, pre.length + f.length + 1)]⟩ := by
  rw [fieldPass, strchr_next pre hDelimiter hNul]
  exact if_neg (Nat.not_le_of_lt hInside)

/-- The last field ends with the line, and is found when the memory behind the line has a delimiter, or
a NUL. -/
theorem fieldPass_last (hd : delimiter ≠ newline) {f : List UInt8} (hDelimiter : delimiter ∉ f)
    (hNul : 0 ∉ f) (pre after : List UInt8) (res : List (Nat × Nat)) :
    fieldPass delimiter (pre ++ (f ++ newline :: after)) (pre.length + f.length + 1)
      ⟨pre.length, pre.length, res⟩ =
        .leave [] ((strchr delimiter after).map
          fun _ => res ++ [(pre.length, pre.length + f.length + 1)]) := by
  rw [fieldPass, strchr_last pre hd hDelimiter hNul]
  cases strchr delimiter after with
  | none => rfl
  | some r =>
    cases r with
    | none => rfl
    | some i =>
      have hBeyond : pre.length + (f.length + (i + 1)) + 1 ≥ pre.length + f.length + 1 := by omega
      exact if_pos hBeyond

/-- The search in a line, from one of its fields on. -/
theorem exec_fields (hd : delimiter ≠ newline) {fs : List (List UInt8)}
    {pre memory after : List UInt8} {lineSize : Nat}
    (h : LineFrom delimiter fs after memory lineSize pre) (res : List (Nat × Nat)) :
    ((fieldBody delimiter memory lineSize).exec ⟨pre.length, pre.length, res⟩).2 =
      (strchr delimiter after).map fun _ => res ++ places pre.length fs := by
  induction fs generalizing pre res with
  | nil => exact absurd rfl h.some
  | cons f fs ih =>
    have hDelimiter : delimiter ∉ f := h.noDelimiter f List.mem_cons_self
    have hNul : 0 ∉ f := h.noNul f List.mem_cons_self
    cases fs with
    | nil =>
      have hPass := fieldPass_last hd hDelimiter hNul pre after res
      rw [h.memory, h.size, List.intercalate_singleton]
      exact congrArg Prod.snd ((fieldBody delimiter _ _).exec_leave hPass)
    | cons g fs =>
      have hPass := fieldPass_next hDelimiter hNul pre
        ([delimiter].intercalate (g :: fs) ++ newline :: after) h.inside res
      have hRest := ih h.next (res ++ [(pre.length, pre.length + f.length + 1)])
      rw [← h.memory_next] at hPass
      rw [length_next] at hRest
      rw [(fieldBody delimiter memory lineSize).exec_again hPass]
      apply hRest.trans
      congr 1
      funext r
      rw [List.append_assoc]
      rfl

theorem fields_line (l : Line delimiter) (hNul : 0 ∉ l.text) (after : List UInt8) :
    fields delimiter (l.text ++ newline :: after) (l.text.length + 1) =
      (strchr delimiter after).map fun _ => places 0 l.fields :=
  exec_fields l.delimiter_ne (l.lineFrom hNul after) []

/-! ### What is written for a line -/

theorem take_split {c : Nat × Nat} {fs : List (List UInt8)} (h : c.1 - 1 ≤ c.2) :
    fs.take c.2 = fs.take (c.1 - 1) ++ fieldRange c fs := by
  have hFront : (fs.take c.2).take (c.1 - 1) = fs.take (c.1 - 1) := by
    rw [List.take_take, Nat.min_eq_left h]
  rw [fieldRange, ← hFront, List.take_append_drop]

/-- A range that counts copies its fields with the delimiter behind each. -/
theorem memcpy_range {l : Line delimiter} {c : Nat × Nat} (hCounts : counts l.fields.length c)
    (after : List UInt8) :
    memcpy [] ((l.text ++ newline :: after).drop (ended delimiter (l.fields.take (c.1 - 1))).length)
      ((ended delimiter (l.fields.take c.2)).length -
        (ended delimiter (l.fields.take (c.1 - 1))).length) =
      ended delimiter (fieldRange c l.fields) := by
  obtain ⟨-, hSecond, hOne, hLe⟩ := of_decide_eq_true hCounts
  have hSplit : l.fields.take c.2 = l.fields.take (c.1 - 1) ++ fieldRange c l.fields :=
    take_split (by omega)
  have hBehind : l.fields.drop c.2 ≠ [] := by
    intro hNil
    have := List.drop_eq_nil_iff.mp hNil
    omega
  have hText : l.text = ended delimiter (l.fields.take (c.1 - 1)) ++
      (ended delimiter (fieldRange c l.fields) ++ [delimiter].intercalate (l.fields.drop c.2)) := by
    rw [← List.append_assoc, ← ended_append, ← hSplit, ← joined_append hBehind,
      List.take_append_drop, Line.text]
  rw [hSplit, ended_append, List.length_append, Nat.add_sub_cancel_left, hText, List.append_assoc,
    List.drop_left, memcpy, List.append_assoc, List.take_left, List.nil_append]

theorem copyColumns_line (l : Line delimiter) (conds : List (Nat × Nat)) (after : List UInt8) :
    copyColumns (l.text ++ newline :: after) (l.text.length + 1) (places 0 l.fields) conds [] =
      ended delimiter (selected (conds.takeWhile (counts l.fields.length)) l.fields) ++
        if conds.dropWhile (counts l.fields.length) = [] then [] else l.text ++ [newline] := by
  induction conds with
  | nil => rfl
  | cons c conds ih =>
    obtain ⟨first, second⟩ := c
    rw [copyColumns, length_places]
    by_cases hCounts : counts l.fields.length (first, second)
    · have hRange := memcpy_range hCounts after
      have hTest := of_decide_eq_true hCounts
      obtain ⟨hFirst, hSecond, hOne, hLe⟩ := hTest
      dsimp only at hFirst hSecond hOne hLe
      have hEnd : (places 0 l.fields).getD (second - 1) (0, 0) = _ :=
        places_getD delimiter (by omega) 0
      rw [if_pos ⟨hFirst, hSecond, hOne, hLe⟩, List.takeWhile_cons_of_pos hCounts,
        List.dropWhile_cons_of_pos hCounts, selected, List.flatMap_cons, ended_append,
        List.append_assoc, ← selected, ← ih, hEnd, Nat.sub_add_cancel (Nat.le_trans hOne hLe)]
      simp only [Nat.zero_add]
      have hStart : (places 0 l.fields).getD (first - 1) (0, 0) = _ :=
        places_getD delimiter (by omega) 0
      by_cases hOneFirst : first = 1
      · subst hOneFirst
        have hZero : (places 0 l.fields).getD 0 (0, 0) = _ := hStart
        rw [if_pos rfl, copyColumns_out, hZero]
        exact congrArg (· ++ _) hRange
      · have hBefore : (places 0 l.fields).getD (first - 2) (0, 0) = _ :=
          places_getD delimiter (by omega) 0
        have hTwo : first - 2 + 1 = first - 1 := by omega
        rw [if_neg hOneFirst, copyColumns_out, hStart, hBefore, hTwo]
        congr 1
        simpa only [Nat.zero_add] using hRange
    · have hTest : ¬(first < l.fields.length ∧ second < l.fields.length ∧ 1 ≤ first ∧
          first ≤ second) := fun h => hCounts (decide_eq_true h)
      have hWhole : l.text ++ newline :: after = l.text ++ [newline] ++ after := by simp
      have hSize : l.text.length + 1 = (l.text ++ [newline]).length := by simp
      rw [if_neg hTest, List.takeWhile_cons_of_neg hCounts, List.dropWhile_cons_of_neg hCounts,
        if_neg (List.cons_ne_nil _ conds), memcpy, hWhole, hSize, List.take_left]
      simp [selected]

/-- The text of a line with some fields. -/
def lineText (delimiter : UInt8) (fs : List (List UInt8)) : List UInt8 :=
  [delimiter].intercalate fs ++ [newline]

theorem endLine_ended (hd : delimiter ≠ newline) {fs : List (List UInt8)} (h : fs ≠ []) :
    endLine (ended delimiter fs) = some (lineText delimiter fs) := by
  rw [← joined_end h, endLine, List.getLast?_concat]
  dsimp only
  rw [if_pos hd, List.dropLast_concat, lineText]

theorem endLine_lineText (fs : List (List UInt8)) :
    endLine (lineText delimiter fs) = some (lineText delimiter fs) := by
  rw [lineText, endLine, List.getLast?_concat]
  rfl

theorem endLine_append_some {out bytes bytes' : List UInt8} (h : endLine bytes = some bytes') :
    endLine (out ++ bytes) = some (out ++ bytes') := by
  have hSome : bytes ≠ [] := by
    rintro rfl
    cases h
  rw [endLine_append out hSome, h]
  rfl

theorem fieldRange_ne_nil {c : Nat × Nat} {fs : List (List UInt8)} (hOne : 1 ≤ c.1)
    (hLe : c.1 ≤ c.2) (hFits : c.2 ≤ fs.length) : fieldRange c fs ≠ [] := by
  intro hNil
  have hLength := congrArg List.length hNil
  rw [fieldRange, List.length_drop, List.length_take, List.length_nil] at hLength
  omega

theorem selected_ne_nil {conds : List (Nat × Nat)} {fs : List (List UInt8)} (hSome : conds ≠ [])
    (h : ∀ c ∈ conds, 1 ≤ c.1 ∧ c.1 ≤ c.2 ∧ c.2 ≤ fs.length) : selected conds fs ≠ [] := by
  obtain ⟨c, conds, rfl⟩ := List.exists_cons_of_ne_nil hSome
  obtain ⟨hOne, hLe, hFits⟩ := h c List.mem_cons_self
  rw [selected, List.flatMap_cons]
  exact List.append_ne_nil_of_left_ne_nil (fieldRange_ne_nil hOne hLe hFits) _

/-- All ranges count when none is left. -/
theorem takeWhile_counts {n : Nat} {conds : List (Nat × Nat)} (h : conds.dropWhile (counts n) = []) :
    conds.takeWhile (counts n) = conds := by
  have hBoth := List.takeWhile_append_dropWhile (p := counts n) (l := conds)
  rwa [h, List.append_nil] at hBoth

theorem selected_counts_ne_nil {conds : List (Nat × Nat)} {fs : List (List UInt8)}
    (hSome : conds ≠ []) (h : conds.dropWhile (counts fs.length) = []) : selected conds fs ≠ [] := by
  apply selected_ne_nil hSome
  intro c hc
  rw [← takeWhile_counts h] at hc
  have hCounts : counts fs.length c = true := List.mem_takeWhile_imp hc
  obtain ⟨-, hSecond, hOne, hLe⟩ := of_decide_eq_true hCounts
  exact ⟨hOne, hLe, Nat.le_of_lt hSecond⟩

theorem written_ne_nil {conds : List (Nat × Nat)} {fs : List (List UInt8)} (hSome : conds ≠ [])
    (hFields : fs ≠ []) : written conds fs ≠ [] := by
  rw [written]
  split
  · rename_i hAll
    rw [takeWhile_counts hAll, List.append_nil]
    exact selected_counts_ne_nil hSome hAll
  · exact List.append_ne_nil_of_right_ne_nil _ hFields

/-- A line is written when the memory behind it has a delimiter or a NUL. -/
theorem lineOut_line (task : ColTask) (l : Line task.delimiter) (hNul : 0 ∉ l.text)
    (after : List UInt8) :
    lineOut task (l.text ++ newline :: after) (l.text.length + 1) =
      (strchr task.delimiter after).map fun _ =>
        lineText task.delimiter (written (conditionVec [] task.condition) l.fields) := by
  rw [lineOut, fields_line l hNul]
  cases strchr task.delimiter after with
  | none => rfl
  | some r =>
    dsimp only [Option.map_some, Option.bind_eq_bind, Option.bind_some]
    have hSome := conditionVec_ne_nil [] task.condition
    generalize conditionVec [] task.condition = conds at hSome
    rw [copyColumns_line, written]
    split
    · rename_i hAll
      rw [List.append_nil, List.append_nil, takeWhile_counts hAll]
      exact endLine_ended l.delimiter_ne (selected_counts_ne_nil hSome hAll)
    · rw [lineText, joined_append l.some, List.append_assoc]
      exact endLine_append_some (endLine_lineText l.fields)

/-! ### The text of a condition -/

def conditionText (conds : List (Nat × Nat)) : List Char :=
  [','].intercalate (conds.map fun c => (toString c.1).toList ++ '-' :: (toString c.2).toList)

theorem conditionVec_eq (part cond : List Char) :
    conditionVec part cond = (pieces ',' part cond).map columns := by
  fun_induction conditionVec part cond with
  | case1 part => rfl
  | case2 rest ih => rw [pieces, if_pos rfl, if_pos rfl, ih]
  | case3 part rest hPart ih => rw [pieces, if_pos rfl, if_neg hPart, List.map_cons, ih]
  | case4 part c rest hc ih => rw [pieces, if_neg hc, ih]

theorem isDigit_toString {n : Nat} {c : Char} (h : c ∈ (toString n).toList) : c.isDigit := by
  rw [Nat.toString_eq_repr, Nat.toList_repr] at h
  exact Nat.isDigit_of_mem_toDigits (by decide) (by decide) h

theorem notMem_toString {n : Nat} {c : Char} (hc : c.isDigit = false) :
    c ∉ (toString n).toList := by
  intro hIn
  have hDigit := isDigit_toString hIn
  rw [hc] at hDigit
  cases hDigit

theorem atoi_toString {n : Nat} (h : n < 2 ^ 31) :
    ((FeedProxy.atoi (String.ofList (toString n).toList)).emod (2 ^ 32)).toNat = n := by
  have hNumber : Nat.ofDigitChars 10 (toString n).toList 0 = n := by
    rw [Nat.toString_eq_repr, Nat.toList_repr, Nat.ofDigitChars_ten_toDigits]
  rw [FeedProxy.atoi_digits (fun c hc => isDigit_toString hc) (by rw [hNumber]; exact h), hNumber]
  show (((n : Int)) % (2 ^ 32)).toNat = n
  omega

theorem columns_text {c : Nat × Nat} (hFirst : c.1 < 2 ^ 31) (hSecond : c.2 < 2 ^ 31) :
    columns ((toString c.1).toList ++ '-' :: (toString c.2).toList) = c := by
  have hNot : ∀ b ∈ (toString c.1).toList, decide (b ≠ '-') = true := fun b hb =>
    decide_eq_true fun hEq => notMem_toString (by decide) (hEq ▸ hb)
  have hTake : ((toString c.1).toList ++ '-' :: (toString c.2).toList).takeWhile (· ≠ '-') =
      (toString c.1).toList := by
    rw [List.takeWhile_append_of_pos hNot]
    simp
  have hDrop : ((toString c.1).toList ++ '-' :: (toString c.2).toList).dropWhile (· ≠ '-') =
      '-' :: (toString c.2).toList := by
    rw [List.dropWhile_append_of_pos hNot]
    simp
  rw [columns, hTake, hDrop, if_pos (by simp), List.tail_cons]
  dsimp only
  rw [atoi_toString hFirst, atoi_toString hSecond]

/-- A list of ranges is read again; the empty text is one range that never counts. -/
theorem conditionVec_text {conds : List (Nat × Nat)}
    (h : ∀ c ∈ conds, c.1 < 2 ^ 31 ∧ c.2 < 2 ^ 31) :
    conditionVec [] (conditionText conds) = if conds = [] then [(0, 0)] else conds := by
  split
  · rename_i hNil
    rw [hNil]
    rfl
  · rename_i hSome
    have hNot : ∀ p ∈ conds.map fun c => (toString c.1).toList ++ '-' :: (toString c.2).toList,
        ',' ∉ p := by
      intro p hp
      obtain ⟨c, -, rfl⟩ := List.mem_map.mp hp
      rw [List.mem_append, List.mem_cons, not_or, not_or]
      exact ⟨notMem_toString (by decide), by decide, notMem_toString (by decide)⟩
    have hPiece : ∀ p ∈ conds.map fun c => (toString c.1).toList ++ '-' :: (toString c.2).toList,
        p ≠ [] := by
      intro p hp
      obtain ⟨c, -, rfl⟩ := List.mem_map.mp hp
      simp
    rw [conditionVec_eq, conditionText,
      pieces_joined (by simpa using hSome) hPiece hNot, List.map_map]
    refine (List.map_congr_left fun c hc => ?_).trans (List.map_id conds)
    exact columns_text (h c hc).1 (h c hc).2

/-! ### Which selections are exact -/

/-- Ranges of columns that a line of `n` fields has. -/
def Within (n : Nat) (conds : List (Nat × Nat)) : Prop :=
  ∀ c ∈ conds, 1 ≤ c.1 ∧ c.1 ≤ c.2 ∧ c.2 ≤ n

/-- The ranges from the first on that reaches the last column. -/
def fromLast (n : Nat) (conds : List (Nat × Nat)) : List (Nat × Nat) :=
  conds.dropWhile (·.2 < n)

/-- There is no such range, or the fields from it on are those of the whole line. -/
def SelectsWell (conds : List (Nat × Nat)) (fs : List (List UInt8)) : Prop :=
  if conds = [] then
    fs = [[]]
  else
    fromLast fs.length conds = [] ∨ selected (fromLast fs.length conds) fs = fs

theorem dropWhile_counts {n : Nat} {conds : List (Nat × Nat)} (h : Within n conds) :
    conds.dropWhile (counts n) = fromLast n conds := by
  unfold fromLast
  induction conds with
  | nil => rfl
  | cons c conds ih =>
    obtain ⟨⟨hOne, hLe, -⟩, hLater⟩ := List.forall_mem_cons.mp h
    have hSame : counts n c = decide (c.2 < n) := by
      rw [counts, decide_eq_decide]
      exact ⟨fun hAll => hAll.2.1, fun hLt => ⟨Nat.lt_of_le_of_lt hLe hLt, hLt, hOne, hLe⟩⟩
    rw [List.dropWhile_cons, List.dropWhile_cons, hSame, ih hLater]

theorem selected_append (conds conds' : List (Nat × Nat)) (fs : List (List UInt8)) :
    selected (conds ++ conds') fs = selected conds fs ++ selected conds' fs :=
  List.flatMap_append

theorem mem_selected {conds : List (Nat × Nat)} {fs : List (List UInt8)} {f : List UInt8}
    (h : f ∈ selected conds fs) : f ∈ fs := by
  obtain ⟨c, -, hf⟩ := List.mem_flatMap.mp h
  exact List.mem_of_mem_take (List.mem_of_mem_drop hf)

theorem mem_written {conds : List (Nat × Nat)} {fs : List (List UInt8)} {f : List UInt8}
    (h : f ∈ written conds fs) : f ∈ fs := by
  rcases List.mem_append.mp h with hRange | hWhole
  · exact mem_selected hRange
  · split at hWhole
    · cases hWhole
    · exact hWhole

theorem written_eq_selected {conds : List (Nat × Nat)} {fs : List (List UInt8)}
    (h : Within fs.length conds) : written conds fs = selected conds fs ↔
      fromLast fs.length conds = [] ∨ selected (fromLast fs.length conds) fs = fs := by
  have hSplit : selected conds fs = selected (conds.takeWhile (counts fs.length)) fs ++
      selected (conds.dropWhile (counts fs.length)) fs := by
    rw [← selected_append, List.takeWhile_append_dropWhile]
  rw [hSplit, written, List.append_cancel_left_eq, dropWhile_counts h]
  split
  · rename_i hNone
    rw [hNone]
    exact iff_of_true rfl (Or.inl rfl)
  · rename_i hSome
    exact eq_comm.trans (or_iff_right hSome).symm

/-- What is written for a line is its selection when the ranges select well. -/
theorem joined_written_iff (l : Line delimiter) {conds : List (Nat × Nat)}
    (h : Within l.fields.length conds) :
    [delimiter].intercalate (written (if conds = [] then [(0, 0)] else conds) l.fields) =
      [delimiter].intercalate (selected conds l.fields) ↔ SelectsWell conds l.fields := by
  rw [SelectsWell]
  split
  · rename_i hNil
    have hWhole : written [(0, 0)] l.fields = l.fields := by
      have hNot : counts l.fields.length (0, 0) = false := decide_eq_false fun hAll =>
        absurd hAll.2.2.1 (by decide)
      rw [written, List.takeWhile_cons, List.dropWhile_cons, hNot]
      rfl
    have hEmpty : [delimiter].intercalate (selected [] l.fields) = [delimiter].intercalate [[]] := rfl
    rw [hNil, hWhole, hEmpty]
    constructor
    · apply joined_inj l.noDelimiter _ l.some (List.cons_ne_nil [] [])
      simp
    · exact congrArg _
  · rename_i hSome
    rw [← written_eq_selected h]
    constructor
    · exact joined_inj (fun f hf => l.noDelimiter f (mem_written hf))
        (fun f hf => l.noDelimiter f (mem_selected hf)) (written_ne_nil hSome l.some)
        (selected_ne_nil hSome h)
    · exact congrArg _

theorem linePass_lines (task : ColTask) :
    (lineBody task).pass = linesPass task.fileSize (lineOut task) :=
  funext fun t => (lineBody_pass task t).trans (linePass_eq task t)

/-- `Run` on some lines, with `rest` behind them in the mapped memory. -/
def tableTask (lines : List (Line delimiter)) (rest : List UInt8) (condition : List Char) :
    ColTask where
  fileMap := tableText lines ++ rest
  fileSize := (tableText lines).length
  condition
  delimiter

theorem run_tableTask (lines : List (Line delimiter)) (rest : List UInt8) (condition : List Char) :
    (tableTask lines rest condition).run =
      linesOut (lineOut (tableTask lines rest condition)) rest lines := by
  show ((lineBody (tableTask lines rest condition)).exec ⟨0, tableText lines ++ rest, []⟩).2 = _
  rw [exec_linesOut _ (linePass_lines _) (Nat.zero_add (tableText lines).length)]
  simp

theorem flatMap_lineText (lines : List (Line delimiter))
    (fs : Line delimiter → List (List UInt8)) :
    lines.flatMap (fun l => lineText delimiter (fs l)) =
      ended newline (lines.map fun l => [delimiter].intercalate (fs l)) := by
  rw [ended, List.flatMap_map]
  rfl

theorem noFault_iff (task : ColTask) {lines : List (Line task.delimiter)} {rest : List UInt8}
    (hNul : ∀ l ∈ lines, 0 ∉ l.text) :
    NoFault (lineOut task) rest lines ↔ lines = [] ∨ task.delimiter ∈ rest ∨ 0 ∈ rest := by
  have hLine : ∀ l ∈ lines, ∀ after, (lineOut task (l.text ++ newline :: after)
      (l.text.length + 1)).isSome ↔ task.delimiter ∈ after ∨ 0 ∈ after := by
    intro l hl after
    rw [lineOut_line task l (hNul l hl), Option.isSome_map, strchr_isSome]
  constructor
  · intro h
    rcases List.eq_nil_or_concat lines with hNil | ⟨front, l, rfl⟩
    · exact Or.inl hNil
    · right
      rw [List.concat_eq_append] at h hNul hLine
      have hLast := h front l [] rfl hNul
      rwa [hLine l (by simp)] at hLast
  · rintro (rfl | hRest) pre l post hSplit -
    · exact absurd hSplit.symm (List.append_ne_nil_of_right_ne_nil pre (List.cons_ne_nil l post))
    · rw [hLine l (by rw [hSplit]; simp), List.mem_append, List.mem_append]
      exact hRest.imp Or.inr Or.inr

theorem noNul_iff {lines : List (Line delimiter)} :
    0 ∉ tableText lines ↔ ∀ l ∈ lines, 0 ∉ l.text := by
  have hNewline : (0 : UInt8) ≠ newline := by decide
  rw [tableText, mem_ended]
  simp [hNewline]

theorem length_readLines {lines : List (Line delimiter)} :
    (readLines lines).length = lines.length ↔ 0 ∉ tableText lines := by
  rw [noNul_iff, readLines]
  constructor
  · intro h l hl
    have hAll := (List.takeWhile_prefix (fun l : Line delimiter => decide (0 ∉ l.text))).eq_of_length h
    simpa using List.takeWhile_eq_self_iff.mp hAll l hl
  · intro h
    rw [List.takeWhile_eq_self_iff.mpr fun l hl => by simpa using h l hl]

/-- The fields that a line has fit in its text. -/
theorem length_fields_le {lines : List (Line delimiter)} {l : Line delimiter} (hl : l ∈ lines) :
    l.fields.length ≤ (tableText lines).length := by
  obtain ⟨front, back, rfl⟩ := List.append_of_mem hl
  have hLine : l.fields.length ≤ l.text.length + 1 := by
    have hLength := congrArg List.length (joined_end (d := delimiter) l.some)
    rw [List.length_append, List.length_singleton, length_ended] at hLength
    have hSum : l.fields.length ≤ (l.fields.map fun f => f.length + 1).sum := by
      have hOnes := List.length_le_sum_of_one_le (l.fields.map fun f => f.length + 1) (by simp)
      rwa [List.length_map] at hOnes
    exact hSum.trans hLength.ge
  rw [tableText, List.map_append, ended_append, List.map_cons, ended_cons]
  simp only [List.length_append, List.length_cons]
  omega

/-- The fields of each range in turn are written for each line, and nothing else, exactly when no NUL is
in the chunk, a delimiter or a NUL is behind it, and for each line no range reaches the last column, or
the fields from the first such range on are those of the whole line. -/
theorem run_selected_iff (lines : List (Line delimiter)) (rest : List UInt8)
    {conds : List (Nat × Nat)} (hConds : ∀ l ∈ lines, Within l.fields.length conds)
    (hSize : (tableText lines).length < 2 ^ 31) :
    (tableTask lines rest (conditionText conds)).run =
      some (lines.flatMap fun l => lineText delimiter (selected conds l.fields)) ↔
    (lines = [] ∨ delimiter ∈ rest ∨ 0 ∈ rest) ∧ 0 ∉ tableText lines ∧
      ∀ l ∈ lines, SelectsWell conds l.fields := by
  let task := tableTask lines rest (conditionText conds)
  have hOut : ∀ (l : Line delimiter) (after bytes : List UInt8), 0 ∉ l.text →
      lineOut task (l.text ++ newline :: after) (l.text.length + 1) = some bytes →
      bytes = lineText delimiter (written (conditionVec [] (conditionText conds)) l.fields) := by
    intro l after bytes hNul hSome
    obtain ⟨-, -, hEq⟩ := Option.map_eq_some_iff.mp ((lineOut_line task l hNul after).symm.trans hSome)
    exact hEq.symm
  have hVec : ∀ l ∈ lines, conditionVec [] (conditionText conds) =
      if conds = [] then [(0, 0)] else conds := by
    intro l hl
    apply conditionVec_text
    intro c hc
    obtain ⟨-, hLe, hFits⟩ := hConds l hl c hc
    have := length_fields_le hl
    exact ⟨by omega, by omega⟩
  rw [run_tableTask, linesOut_eq_some hOut, flatMap_lineText, flatMap_lineText]
  have hSelected : ∀ p ∈ lines.map fun l => [delimiter].intercalate (selected conds l.fields),
      newline ∉ p := by
    intro p hp
    obtain ⟨l, -, rfl⟩ := List.mem_map.mp hp
    exact newline_notMem_joined l.delimiter_ne fun f hf => l.noNewline f (mem_selected hf)
  have hWritten : ∀ p ∈ (readLines lines).map fun l => [delimiter].intercalate
      (written (conditionVec [] (conditionText conds)) l.fields), newline ∉ p := by
    intro p hp
    obtain ⟨l, -, rfl⟩ := List.mem_map.mp hp
    exact newline_notMem_joined l.delimiter_ne fun f hf => l.noNewline f (mem_written hf)
  constructor
  · rintro ⟨hFault, hEq⟩
    have hSame := ended_inj hSelected hWritten hEq
    have hLength := congrArg List.length hSame
    rw [List.length_map, List.length_map] at hLength
    have hNul : 0 ∉ tableText lines := length_readLines.mp hLength.symm
    have hAll : readLines lines = lines := (List.takeWhile_prefix _).eq_of_length hLength.symm
    refine ⟨(noFault_iff task (noNul_iff.mp hNul)).mp hFault, hNul, fun l hl => ?_⟩
    rw [hAll, List.map_inj_left] at hSame
    rw [← joined_written_iff l (hConds l hl), ← hVec l hl]
    exact (hSame l hl).symm
  · rintro ⟨hRest, hNul, hWell⟩
    have hAll : readLines lines = lines :=
      (List.takeWhile_prefix _).eq_of_length (length_readLines.mpr hNul)
    refine ⟨(noFault_iff task (noNul_iff.mp hNul)).mpr hRest, ?_⟩
    rw [hAll, List.map_congr_left fun l hl => ?_]
    rw [hVec l hl]
    exact ((joined_written_iff l (hConds l hl)).mpr (hWell l hl)).symm

end DemoCode.FileCrop
