import DemoCode.FileCrop.Table

/-! `CodeTask::Run` in `code_task.cpp`: it copies the lines of a chunk that have one of some codes in a
field.  The last field of a line leaves the search before it is tested. -/

namespace DemoCode.FileCrop

open Delimited

def comma : UInt8 := ','.toNat.toUInt8

/-- `BaseTask`, as `Initialize` leaves it; this task compares the condition with the bytes of the
file. -/
structure CodeTask where
  fileMap : List UInt8
  fileSize : Nat
  condition : List UInt8
  delimiter : UInt8 := comma

/-- The keys of the map: the parts of the condition, an empty one only behind the last comma. -/
def conditionMap (condition : List UInt8) : List (List UInt8) := pieces comma [] condition

/-- Where the search in a line stands. -/
structure CodeSearch where
  searchPos : Nat
  preSearchPos : Nat

/-- One pass of the search for the next delimiter, which may look beyond the line. -/
def codePass (codes : List (List UInt8)) (delimiter : UInt8) (lineStart : List UInt8)
    (lineSize : Nat) (t : CodeSearch) : Loop.Pass CodeSearch Unit (Option Bool) :=
  match strchr delimiter (lineStart.drop t.searchPos) with
  | none => .leave [] none
  | some none => .leave [] (some false)
  | some (some i) =>
    let searchPos := t.searchPos + i
    let searchedSize := searchPos + 1
    if searchedSize ≥ lineSize then
      .leave [] (some false)
    else if (lineStart.drop t.preSearchPos).take (searchPos - t.preSearchPos) ∈ codes then
      .leave [] (some true)
    else
      .again [] { searchPos := searchPos + 1, preSearchPos := searchPos + 1 }

theorem codePass_lowers {codes : List (List UInt8)} {delimiter : UInt8} {lineStart : List UInt8} {lineSize : Nat}
    {t t' : CodeSearch} {out : List Unit} (h : codePass codes delimiter lineStart lineSize t = .again out t') :
    lineSize - t'.searchPos < lineSize - t.searchPos := by
  unfold codePass at h
  split at h
  · cases h
  · cases h
  · dsimp only at h
    split at h
    · cases h
    · rename_i hLt
      split at h
      · cases h
      · cases h
        dsimp only
        omega

def codeBody (codes : List (List UInt8)) (delimiter : UInt8) (lineStart : List UInt8)
    (lineSize : Nat) : Loop.Body CodeSearch Unit (Option Bool) where
  pass := codePass codes delimiter lineStart lineSize
  measure t := lineSize - t.searchPos
  lowers := codePass_lowers

def isFind (codes : List (List UInt8)) (delimiter : UInt8) (lineStart : List UInt8)
    (lineSize : Nat) : Option Bool :=
  ((codeBody codes delimiter lineStart lineSize).exec ⟨0, 0⟩).2

/-- One pass of the loop over the lines. -/
def codeLinePass (task : CodeTask) (t : Lines) : Loop.Pass Lines Unit (Option (List UInt8)) :=
  if t.pos < task.fileSize then
    match strchr newline t.lineStart with
    | none => .leave [] none
    | some none => .leave [] (some t.out)
    | some (some lineEnd) =>
      let lineSize := lineEnd + 1
      match isFind (conditionMap task.condition) task.delimiter t.lineStart lineSize with
      | none => .leave [] none
      | some found =>
        .again [] {
          pos := t.pos + lineSize
          lineStart := t.lineStart.drop lineSize
          out := if found then memcpy t.out t.lineStart lineSize else t.out }
  else
    .leave [] (some t.out)

def codeLineBody (task : CodeTask) : Loop.Body Lines Unit (Option (List UInt8)) where
  pass := codeLinePass task
  measure t := task.fileSize - t.pos
  lowers := by
    intro t out t' h
    unfold codeLinePass at h
    split at h
    · rename_i hPos
      split at h
      · cases h
      · cases h
      · dsimp only at h
        split at h
        · cases h
        · cases h
          dsimp only
          omega
    · cases h

/-- `Run`, with what it leaves in the new file map. -/
def CodeTask.run (task : CodeTask) : Option (List UInt8) :=
  ((codeLineBody task).exec ⟨0, task.fileMap, []⟩).2

/-! ### The search in a line -/

variable {delimiter : UInt8} {codes : List (List UInt8)}

theorem codePass_next (codes : List (List UInt8)) {f : List UInt8} (hDelimiter : delimiter ∉ f) (hNul : 0 ∉ f)
    (pre line : List UInt8) {lineSize : Nat} (hInside : pre.length + f.length + 1 < lineSize) :
    codePass codes delimiter (pre ++ (f ++ delimiter :: line)) lineSize ⟨pre.length, pre.length⟩ =
      if f ∈ codes then
        .leave [] (some true)
      else
        .again [] ⟨pre.length + f.length + 1, pre.length + f.length + 1⟩ := by
  have hField : ((pre ++ (f ++ delimiter :: line)).drop pre.length).take
      (pre.length + f.length - pre.length) = f := by
    rw [List.drop_left, Nat.add_sub_cancel_left, List.take_left]
  rw [codePass, strchr_next pre hDelimiter hNul]
  dsimp only
  rw [if_neg (Nat.not_le_of_lt hInside), hField]

theorem codePass_last (codes : List (List UInt8)) (hd : delimiter ≠ newline) {f : List UInt8}
    (hDelimiter : delimiter ∉ f) (hNul : 0 ∉ f) (pre after : List UInt8) :
    codePass codes delimiter (pre ++ (f ++ newline :: after)) (pre.length + f.length + 1)
      ⟨pre.length, pre.length⟩ = .leave [] ((strchr delimiter after).map fun _ => false) := by
  rw [codePass, strchr_last pre hd hDelimiter hNul]
  cases strchr delimiter after with
  | none => rfl
  | some r =>
    cases r with
    | none => rfl
    | some i =>
      have hBeyond : pre.length + (f.length + (i + 1)) + 1 ≥ pre.length + f.length + 1 := by omega
      exact if_pos hBeyond

/-- A code is in a field in front of the last one. -/
def tested (codes fs : List (List UInt8)) : Bool := fs.dropLast.any (· ∈ codes)

theorem tested_next (codes : List (List UInt8)) (f g : List UInt8) (fs : List (List UInt8)) :
    tested codes (f :: g :: fs) = (decide (f ∈ codes) || tested codes (g :: fs)) := by
  rw [tested, List.dropLast_cons_cons, List.any_cons, tested]

/-- The search in a line, from one of its fields on: the fields but the last are tested. -/
theorem exec_code (hd : delimiter ≠ newline) {fs : List (List UInt8)}
    {pre memory after : List UInt8} {lineSize : Nat}
    (h : LineFrom delimiter fs after memory lineSize pre) :
    ((codeBody codes delimiter memory lineSize).exec ⟨pre.length, pre.length⟩).2 =
      if tested codes fs then
        some true
      else
        (strchr delimiter after).map fun _ => false := by
  induction fs generalizing pre with
  | nil => exact absurd rfl h.some
  | cons f fs ih =>
    have hDelimiter : delimiter ∉ f := h.noDelimiter f List.mem_cons_self
    have hNul : 0 ∉ f := h.noNul f List.mem_cons_self
    cases fs with
    | nil =>
      have hPass := codePass_last codes hd hDelimiter hNul pre after
      rw [h.memory, h.size, List.intercalate_singleton, tested,
        List.dropLast_singleton, List.any_nil, if_neg Bool.false_ne_true]
      exact congrArg Prod.snd ((codeBody codes delimiter _ _).exec_leave hPass)
    | cons g fs =>
      have hPass := codePass_next codes hDelimiter hNul pre
        ([delimiter].intercalate (g :: fs) ++ newline :: after) h.inside
      rw [← h.memory_next] at hPass
      rw [tested_next]
      by_cases hCode : f ∈ codes
      · rw [if_pos hCode] at hPass
        rw [(codeBody codes delimiter memory lineSize).exec_leave hPass, decide_eq_true hCode]
        rfl
      · have hRest := ih h.next
        rw [length_next] at hRest
        rw [if_neg hCode] at hPass
        rw [(codeBody codes delimiter memory lineSize).exec_again hPass]
        rw [decide_eq_false hCode, Bool.false_or]
        exact hRest

theorem isFind_line (l : Line delimiter) (hNul : 0 ∉ l.text) (after : List UInt8) :
    isFind codes delimiter (l.text ++ newline :: after) (l.text.length + 1) =
      if tested codes l.fields then
        some true
      else
        (strchr delimiter after).map fun _ => false :=
  exec_code l.delimiter_ne (l.lineFrom hNul after)

/-! ### The lines that are copied -/

/-- What the loop copies for a line. -/
def codeLineOut (task : CodeTask) (lineStart : List UInt8) (lineSize : Nat) : Option (List UInt8) :=
  (isFind (conditionMap task.condition) task.delimiter lineStart lineSize).map fun found =>
    if found then lineStart.take lineSize else []

theorem codeLinePass_lines (task : CodeTask) :
    (codeLineBody task).pass = linesPass task.fileSize (codeLineOut task) := by
  funext t
  show codeLinePass task t = _
  unfold codeLinePass linesPass codeLineOut
  split
  · cases strchr newline t.lineStart with
    | none => rfl
    | some r =>
      cases r with
      | none => rfl
      | some lineEnd =>
        dsimp only
        cases isFind (conditionMap task.condition) task.delimiter t.lineStart (lineEnd + 1) with
        | none => rfl
        | some found => cases found <;> simp [memcpy]
  · rfl

/-- `Run` on some lines, with `rest` behind them in the mapped memory. -/
def codeTask (lines : List (Line delimiter)) (rest condition : List UInt8) : CodeTask where
  fileMap := tableText lines ++ rest
  fileSize := (tableText lines).length
  condition
  delimiter

theorem run_codeTask (lines : List (Line delimiter)) (rest condition : List UInt8) :
    (codeTask lines rest condition).run =
      linesOut (codeLineOut (codeTask lines rest condition)) rest lines := by
  show ((codeLineBody (codeTask lines rest condition)).exec ⟨0, tableText lines ++ rest, []⟩).2 = _
  rw [exec_linesOut _ (codeLinePass_lines _) (Nat.zero_add (tableText lines).length)]
  simp

/-! ### Which filterings are exact -/

/-- A code is in a field. -/
def hasCode (codes fs : List (List UInt8)) : Bool := fs.any (· ∈ codes)

/-- The codes as they are read: no codes are one that is empty. -/
def codesRead (codes : List (List UInt8)) : List (List UInt8) := if codes = [] then [[]] else codes

/-- A line that is read is tested alike with and without its last field, and if it is not copied, then a
delimiter or a NUL is behind it.  No line from the first with a NUL on has a code. -/
def FiltersWell (codes : List (List UInt8)) (rest : List UInt8) : List (Line delimiter) → Prop
  | [] => True
  | l :: lines =>
    if 0 ∈ l.text then
      ∀ k ∈ l :: lines, hasCode codes k.fields = false
    else
      tested (codesRead codes) l.fields = hasCode codes l.fields ∧
      (tested (codesRead codes) l.fields ∨ delimiter ∈ tableText lines ++ rest ∨
        0 ∈ tableText lines ++ rest) ∧
      FiltersWell codes rest lines

theorem conditionMap_joined (h : ∀ c ∈ codes, c ≠ [] ∧ comma ∉ c) :
    conditionMap ([comma].intercalate codes) = codesRead codes := by
  rw [conditionMap, codesRead]
  split
  · rename_i hNil
    rw [hNil]
    rfl
  · rename_i hSome
    exact pieces_joined hSome (fun c hc => (h c hc).1) fun c hc => (h c hc).2

theorem hasCode_of_tested {fs : List (List UInt8)} (hSome : codes ≠ [])
    (h : tested (codesRead codes) fs) : hasCode codes fs := by
  rw [codesRead, if_neg hSome, tested, List.any_eq_true] at h
  obtain ⟨f, hf, hCode⟩ := h
  exact List.any_eq_true.mpr ⟨f, List.dropLast_subset fs hf, hCode⟩

theorem ne_nil_of_hasCode {fs : List (List UInt8)} (h : hasCode codes fs) : codes ≠ [] := by
  rintro rfl
  simp [hasCode] at h

theorem codeLineOut_line {task : CodeTask} (hCodes : conditionMap task.condition = codesRead codes)
    (l : Line task.delimiter) (hNul : 0 ∉ l.text) (after : List UInt8) :
    codeLineOut task (l.text ++ newline :: after) (l.text.length + 1) =
      if tested (codesRead codes) l.fields then
        some (l.text ++ [newline])
      else
        (strchr task.delimiter after).map fun _ => [] := by
  have hLine : (l.text ++ newline :: after).take (l.text.length + 1) = l.text ++ [newline] := by
    rw [← List.singleton_append, ← List.append_assoc]
    exact List.take_left' (by simp)
  rw [codeLineOut, hCodes, isFind_line l hNul, hLine]
  split
  · rfl
  · rw [Option.map_map]
    rfl

theorem codeLinesOut {task : CodeTask} (hCodes : conditionMap task.condition = codesRead codes)
    {rest out : List UInt8} {lines : List (Line task.delimiter)}
    (h : linesOut (codeLineOut task) rest lines = some out) :
    out = tableText ((readLines lines).filter fun l => tested (codesRead codes) l.fields) := by
  have hOut : ∀ (l : Line task.delimiter) (after bytes : List UInt8), 0 ∉ l.text →
      codeLineOut task (l.text ++ newline :: after) (l.text.length + 1) = some bytes →
      bytes = if tested (codesRead codes) l.fields then l.text ++ [newline] else [] := by
    intro l after bytes hNul hSome
    rw [codeLineOut_line hCodes l hNul] at hSome
    split at hSome
    · rename_i hTested
      rw [if_pos hTested]
      exact (Option.some.inj hSome).symm
    · rename_i hTested
      obtain ⟨-, -, hNil⟩ := Option.map_eq_some_iff.mp hSome
      rw [if_neg hTested]
      exact hNil.symm
  obtain ⟨-, rfl⟩ := (linesOut_eq_some hOut).mp h
  generalize readLines lines = done
  induction done with
  | nil => rfl
  | cons l done ih =>
    rw [List.flatMap_cons, ih, List.filter_cons]
    split
    · rw [tableText_cons, List.append_assoc]
      rfl
    · rfl

/-- No more lines are copied than have a code. -/
theorem length_tested_le (hSome : codes ≠ []) (lines : List (Line delimiter)) :
    ((readLines lines).filter fun l => tested (codesRead codes) l.fields).length ≤
      (lines.filter fun l => hasCode codes l.fields).length := by
  have hRead := (List.takeWhile_sublist (fun l : Line delimiter => decide (0 ∉ l.text)) (l := lines)).filter
    fun l => tested (codesRead codes) l.fields
  have hTested := List.monotone_filter_right lines
    fun (l : Line delimiter) (h : tested (codesRead codes) l.fields) => hasCode_of_tested hSome h
  exact hRead.length_le.trans hTested.length_le

theorem tableText_filter_cons (l : Line delimiter) (lines : List (Line delimiter))
    (p : Line delimiter → Bool) :
    tableText ((l :: lines).filter p) =
      (if p l then l.text ++ [newline] else []) ++ tableText (lines.filter p) := by
  rw [List.filter_cons]
  split
  · rw [tableText_cons, List.append_assoc]
    rfl
  · rfl

section

variable {task : CodeTask} {rest : List UInt8} {l : Line task.delimiter}
  {lines : List (Line task.delimiter)}

/-- A line that is copied is exact when it has a code; only the empty code, which stands for no code,
is found in a line without one. -/
theorem copied_exact_iff (hTested : tested (codesRead codes) l.fields) :
    (linesOut (codeLineOut task) rest lines).map (l.text ++ [newline] ++ ·) =
      some (tableText ((l :: lines).filter fun l => hasCode codes l.fields)) ↔
    hasCode codes l.fields ∧ linesOut (codeLineOut task) rest lines =
      some (tableText (lines.filter fun l => hasCode codes l.fields)) := by
  rw [tableText_filter_cons, Option.map_eq_some_iff]
  cases hCode : hasCode codes l.fields with
  | true => simp
  | false =>
    have hNone : codes = [] := by
      by_contra hSome
      rw [hasCode_of_tested hSome hTested] at hCode
      cases hCode
    have hFilter : (lines.filter fun l => hasCode codes l.fields) = [] :=
      List.filter_eq_nil_iff.mpr fun k _ h => ne_nil_of_hasCode h hNone
    rw [hFilter]
    simp

/-- A line that is not copied is exact when it has no code: the lines behind it cannot make up for
it. -/
theorem left_exact_iff (hCodes : conditionMap task.condition = codesRead codes) :
    linesOut (codeLineOut task) rest lines =
      some (tableText ((l :: lines).filter fun l => hasCode codes l.fields)) ↔
    hasCode codes l.fields = false ∧ linesOut (codeLineOut task) rest lines =
      some (tableText (lines.filter fun l => hasCode codes l.fields)) := by
  cases hCode : hasCode codes l.fields with
  | true =>
    refine iff_of_false (fun hOut => ?_) (by simp)
    have hLength := length_of_tableText (codeLinesOut hCodes hOut)
    have hLe := length_tested_le (ne_nil_of_hasCode hCode) lines
    rw [List.filter_cons, if_pos hCode, List.length_cons] at hLength
    omega
  | false =>
    rw [List.filter_cons, if_neg (by simp [hCode])]
    simp

theorem linesOut_exact_iff (hCodes : conditionMap task.condition = codesRead codes) :
    linesOut (codeLineOut task) rest lines =
      some (tableText (lines.filter fun l => hasCode codes l.fields)) ↔
    FiltersWell codes rest lines := by
  induction lines with
  | nil => exact iff_of_true rfl trivial
  | cons l lines ih =>
    rw [linesOut, FiltersWell]
    by_cases hNul : 0 ∈ l.text
    · rw [if_pos hNul, if_pos hNul, Option.some_inj, eq_comm]
      constructor
      · intro hNil k hk
        simpa using List.filter_eq_nil_iff.mp (eq_nil_of_tableText hNil) k hk
      · intro hNone
        rw [List.filter_eq_nil_iff.mpr fun k hk => by simpa using hNone k hk]
        rfl
    · rw [if_neg hNul, if_neg hNul, codeLineOut_line hCodes l hNul]
      cases hTested : tested (codesRead codes) l.fields with
      | true =>
        rw [if_pos rfl, Option.bind_some, copied_exact_iff hTested, ih, eq_comm]
        simp
      | false =>
        rw [if_neg Bool.false_ne_true, ← strchr_isSome]
        cases strchr task.delimiter (tableText lines ++ rest) with
        | none => exact iff_of_false (Option.some_ne_none _).symm (by simp)
        | some r =>
          have hSame : (linesOut (codeLineOut task) rest lines).map ([] ++ ·) =
              linesOut (codeLineOut task) rest lines := by simp
          rw [Option.map_some, Option.bind_some, hSame, left_exact_iff hCodes, ih, eq_comm]
          simp

end

end DemoCode.FileCrop
