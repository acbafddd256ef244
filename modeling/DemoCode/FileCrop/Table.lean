import DemoCode.FileCrop.ColTask
import DemoCode.Lib.Delimited

/-! Chunks of whole lines.  A line is some fields with the delimiter between them, and a loop over the
lines of a chunk is known from what it writes for a line, with the memory from its start on. -/

namespace DemoCode.FileCrop

open Delimited

/-! ### Lines of fields -/

/-- A line, by its fields. -/
structure Line (delimiter : UInt8) where
  fields : List (List UInt8)
  some : fields ≠ []
  noDelimiter : ∀ f ∈ fields, delimiter ∉ f
  noNewline : ∀ f ∈ fields, newline ∉ f
  delimiter_ne : delimiter ≠ newline

variable {delimiter : UInt8}

/-- The line `x,y`. -/
def twoFields : Line ','.toNat.toUInt8 where
  fields := [['x'.toNat.toUInt8], ['y'.toNat.toUInt8]]
  some := by decide
  noDelimiter := by decide
  noNewline := by decide
  delimiter_ne := by decide

/-- The text of a line in front of its newline. -/
def Line.text (l : Line delimiter) : List UInt8 := [delimiter].intercalate l.fields

def tableText (lines : List (Line delimiter)) : List UInt8 := ended newline (lines.map Line.text)

theorem newline_notMem_joined {fs : List (List UInt8)} (hd : delimiter ≠ newline)
    (h : ∀ f ∈ fs, newline ∉ f) : newline ∉ [delimiter].intercalate fs := by
  intro hIn
  rcases mem_joined hIn with hEq | ⟨f, hf, hMem⟩
  · exact hd hEq.symm
  · exact h f hf hMem

theorem Line.newline_notMem (l : Line delimiter) : newline ∉ l.text :=
  newline_notMem_joined l.delimiter_ne l.noNewline

@[simp] theorem tableText_nil : tableText ([] : List (Line delimiter)) = [] := rfl

theorem tableText_cons (l : Line delimiter) (lines : List (Line delimiter)) :
    tableText (l :: lines) = l.text ++ newline :: tableText lines := ended_cons

/-- The line with a text. -/
def Line.ofText (hd : delimiter ≠ newline) (text : List UInt8) (h : newline ∉ text) :
    Line delimiter where
  fields := text.splitOn delimiter
  some := List.splitOn_ne_nil delimiter text
  noDelimiter _ hf := not_mem_of_mem_splitOn hf
  noNewline f hf hIn := by
    have hText : newline ∈ [delimiter].intercalate (text.splitOn delimiter) :=
      mem_joined_of_mem hf hIn
    rw [List.intercalate_splitOn] at hText
    exact h hText
  delimiter_ne := hd

theorem Line.text_ofText (hd : delimiter ≠ newline) {text : List UInt8} (h : newline ∉ text) :
    (Line.ofText hd text h).text = text :=
  List.intercalate_splitOn delimiter

theorem tableText_append (lines lines' : List (Line delimiter)) :
    tableText (lines ++ lines') = tableText lines ++ tableText lines' := by
  rw [tableText, List.map_append, ended_append]
  rfl

theorem eq_nil_of_tableText {lines : List (Line delimiter)} (h : tableText lines = []) :
    lines = [] := by
  by_contra hSome
  exact ended_ne_nil (by simpa using hSome) h

theorem newline_notMem_texts (lines : List (Line delimiter)) :
    ∀ text ∈ lines.map Line.text, newline ∉ text := by
  intro text hText
  obtain ⟨l, -, rfl⟩ := List.mem_map.mp hText
  exact l.newline_notMem

/-- Chunks of one text have equally many lines. -/
theorem length_of_tableText {lines lines' : List (Line delimiter)}
    (h : tableText lines = tableText lines') : lines.length = lines'.length := by
  have hTexts := ended_inj (newline_notMem_texts lines) (newline_notMem_texts lines') h
  rw [← List.length_map Line.text, hTexts, List.length_map]

/-- The lines of a text. -/
def linesOf (hd : delimiter ≠ newline) (text : List UInt8) : List (Line delimiter) :=
  (text.splitOn newline).dropLast.pmap (Line.ofText hd) fun _ h =>
    not_mem_of_mem_splitOn (List.dropLast_subset _ h)

/-- Every text that ends with a newline is lines of fields. -/
theorem tableText_linesOf (hd : delimiter ≠ newline) {text : List UInt8}
    (h : text = [] ∨ text.getLast? = some newline) : tableText (linesOf hd text) = text := by
  have hTexts : (linesOf hd text).map Line.text = (text.splitOn newline).dropLast := by
    rw [linesOf, List.map_pmap]
    simp only [Line.text_ofText, List.pmap_eq_map, List.map_id_fun']
    rfl
  rw [tableText, hTexts, ended_splitOn h]

/-! ### The search for the end of a field -/

section

variable {f : List UInt8} (pre : List UInt8)

theorem strchr_next (hDelimiter : delimiter ∉ f) (hNul : 0 ∉ f) (line : List UInt8) :
    strchr delimiter ((pre ++ (f ++ delimiter :: line)).drop pre.length) = some (some f.length) := by
  rw [List.drop_left, strchr_skip _ hDelimiter hNul, strchr, if_pos rfl]
  rfl

/-- Behind the last field the search goes on behind the line. -/
theorem strchr_last (hd : delimiter ≠ newline) (hDelimiter : delimiter ∉ f) (hNul : 0 ∉ f)
    (after : List UInt8) :
    strchr delimiter ((pre ++ (f ++ newline :: after)).drop pre.length) =
      (strchr delimiter after).map (Option.map fun i => f.length + (i + 1)) := by
  rw [List.drop_left, strchr_skip _ hDelimiter hNul, strchr, if_neg (Ne.symm hd),
    if_neg (by decide), Option.map_map]
  congr 1
  funext r
  rw [Function.comp_apply, Option.map_map]
  rfl

end

/-- A line in the memory, from one of its fields on; no NUL is in these fields. -/
structure LineFrom (delimiter : UInt8) (fs : List (List UInt8)) (after memory : List UInt8)
    (lineSize : Nat) (pre : List UInt8) : Prop where
  memory : memory = pre ++ ([delimiter].intercalate fs ++ newline :: after)
  size : lineSize = pre.length + ([delimiter].intercalate fs).length + 1
  some : fs ≠ []
  noDelimiter : ∀ f ∈ fs, delimiter ∉ f
  noNul : ∀ f ∈ fs, 0 ∉ f

theorem Line.lineFrom (l : Line delimiter) (hNul : 0 ∉ l.text) (after : List UInt8) :
    LineFrom delimiter l.fields after (l.text ++ newline :: after) (l.text.length + 1) [] where
  memory := (List.nil_append _).symm
  size := by rw [Line.text, List.length_nil, Nat.zero_add]
  some := l.some
  noDelimiter := l.noDelimiter
  noNul _ hf hIn := hNul (mem_joined_of_mem hf hIn)

section

variable {f g after memory pre : List UInt8} {fs : List (List UInt8)} {lineSize : Nat}

/-- The memory behind the first field. -/
theorem LineFrom.memory_next (h : LineFrom delimiter (f :: g :: fs) after memory lineSize pre) :
    memory = pre ++ (f ++ delimiter :: ([delimiter].intercalate (g :: fs) ++ newline :: after)) := by
  rw [h.memory, List.intercalate_cons_cons]
  simp

theorem LineFrom.inside (h : LineFrom delimiter (f :: g :: fs) after memory lineSize pre) :
    pre.length + f.length + 1 < lineSize := by
  rw [h.size, List.intercalate_cons_cons]
  simp only [List.length_append, List.length_singleton]
  omega

theorem LineFrom.next (h : LineFrom delimiter (f :: g :: fs) after memory lineSize pre) :
    LineFrom delimiter (g :: fs) after memory lineSize (pre ++ f ++ [delimiter]) where
  memory := by
    rw [h.memory_next]
    simp
  size := by
    rw [h.size, List.intercalate_cons_cons]
    simp only [List.length_append]
    omega
  some := List.cons_ne_nil g fs
  noDelimiter := (List.forall_mem_cons.mp h.noDelimiter).2
  noNul := (List.forall_mem_cons.mp h.noNul).2

theorem length_next : (pre ++ f ++ [delimiter]).length = pre.length + f.length + 1 := by
  rw [List.length_append, List.length_append, List.length_singleton]

end

/-! ### The loop over the lines -/

section

variable {fileSize pos : Nat} {lineOut : List UInt8 → Nat → Option (List UInt8)}
  {text rest out : List UInt8} {lines : List (Line delimiter)}

theorem linesPass_line (hText : newline ∉ text) (hPos : pos < fileSize) :
    linesPass fileSize lineOut ⟨pos, text ++ newline :: rest, out⟩ =
      if 0 ∈ text then
        .leave [] (some out)
      else
        match lineOut (text ++ newline :: rest) (text.length + 1) with
        | none => .leave [] none
        | some bytes => .again [] ⟨pos + (text.length + 1), rest, out ++ bytes⟩ := by
  rw [linesPass, if_pos hPos]
  by_cases hNul : 0 ∈ text
  · rw [if_pos hNul]
    dsimp only
    rw [strchr_nul _ hText hNul]
  · rw [if_neg hNul]
    have hFound : strchr newline (text ++ newline :: rest) = some (some text.length) := by
      rw [strchr_skip _ hText hNul, strchr, if_pos rfl]
      rfl
    have hDrop : (text ++ newline :: rest).drop (text.length + 1) = rest := by
      rw [← List.drop_drop, List.drop_left, List.drop_one, List.tail_cons]
    dsimp only
    rw [hFound]
    cases hOut : lineOut (text ++ newline :: rest) (text.length + 1) with
    | none => simp [hOut]
    | some bytes => simp [hOut, hDrop]

/-- What a loop over lines writes for some lines with `rest` behind them: the lines from one with a
NUL on are not done. -/
def linesOut (lineOut : List UInt8 → Nat → Option (List UInt8)) (rest : List UInt8) :
    List (Line delimiter) → Option (List UInt8)
  | [] => some []
  | l :: lines =>
    if 0 ∈ l.text then
      some []
    else
      (lineOut (l.text ++ newline :: (tableText lines ++ rest)) (l.text.length + 1)).bind fun bytes =>
        (linesOut lineOut rest lines).map (bytes ++ ·)

theorem exec_linesOut (body : Loop.Body Lines Unit (Option (List UInt8)))
    (hPass : body.pass = linesPass fileSize lineOut)
    (hSize : pos + (tableText lines).length = fileSize) :
    (body.exec ⟨pos, tableText lines ++ rest, out⟩).2 =
      (linesOut lineOut rest lines).map (out ++ ·) := by
  induction lines generalizing pos out with
  | nil =>
    have hLeave : body.pass ⟨pos, rest, out⟩ = .leave [] (some out) := by
      rw [hPass]
      exact if_neg (by rw [← hSize]; exact Nat.lt_irrefl pos)
    rw [tableText_nil, List.nil_append, body.exec_leave hLeave, linesOut]
    simp
  | cons l lines ih =>
    rw [tableText_cons, List.length_append, List.length_cons] at hSize
    have hPos : pos < fileSize := by omega
    have hLine := congrFun hPass ⟨pos, l.text ++ newline :: (tableText lines ++ rest), out⟩
    rw [linesPass_line l.newline_notMem hPos] at hLine
    rw [tableText_cons, List.append_assoc, List.cons_append, linesOut]
    by_cases hNul : 0 ∈ l.text
    · rw [if_pos hNul] at hLine
      rw [body.exec_leave hLine, if_pos hNul]
      simp
    · rw [if_neg hNul] at hLine
      rw [if_neg hNul]
      cases hOut : lineOut (l.text ++ newline :: (tableText lines ++ rest)) (l.text.length + 1) with
      | none =>
        rw [hOut] at hLine
        rw [body.exec_leave hLine]
        rfl
      | some bytes =>
        rw [hOut] at hLine
        have hSizeRest : pos + (l.text.length + 1) + (tableText lines).length = fileSize := by omega
        rw [body.exec_again hLine, Option.bind_some, Option.map_map]
        apply (ih hSizeRest).trans
        congr 1
        funext more
        exact List.append_assoc out bytes more

/-- The lines before the first with a NUL. -/
def readLines (lines : List (Line delimiter)) : List (Line delimiter) :=
  lines.takeWhile (0 ∉ ·.text)

/-- No line that is read ends the program. -/
def NoFault (lineOut : List UInt8 → Nat → Option (List UInt8)) (rest : List UInt8)
    (lines : List (Line delimiter)) : Prop :=
  ∀ pre l post, lines = pre ++ l :: post → (∀ k ∈ pre ++ [l], 0 ∉ k.text) →
    (lineOut (l.text ++ newline :: (tableText post ++ rest)) (l.text.length + 1)).isSome

theorem noFault_cons {l : Line delimiter} : NoFault lineOut rest (l :: lines) ↔ 0 ∉ l.text →
    (lineOut (l.text ++ newline :: (tableText lines ++ rest)) (l.text.length + 1)).isSome ∧
      NoFault lineOut rest lines := by
  constructor
  · intro h hNul
    refine ⟨h [] l lines rfl (by simpa using hNul), fun pre k post hSplit hRead => ?_⟩
    apply h (l :: pre) k post (by rw [hSplit]; rfl)
    exact List.forall_mem_cons.mpr ⟨hNul, hRead⟩
  · intro h pre k post hSplit hRead
    cases pre with
    | nil =>
      obtain ⟨rfl, rfl⟩ := List.cons.inj hSplit
      exact (h (hRead l List.mem_cons_self)).1
    | cons k' pre =>
      obtain ⟨rfl, hRest⟩ := List.cons.inj hSplit
      obtain ⟨hNul, hLater⟩ := List.forall_mem_cons.mp hRead
      exact (h hNul).2 pre k post hRest hLater

/-- The loop ends when no line is a fault, and has written what it writes for each line that is
read. -/
theorem linesOut_eq_some {w : Line delimiter → List UInt8}
    (hOut : ∀ l after bytes, 0 ∉ l.text →
      lineOut (l.text ++ newline :: after) (l.text.length + 1) = some bytes → bytes = w l) :
    linesOut lineOut rest lines = some out ↔
      NoFault lineOut rest lines ∧ out = (readLines lines).flatMap w := by
  induction lines generalizing out with
  | nil =>
    have hNone : NoFault lineOut rest ([] : List (Line delimiter)) := fun pre l post hSplit =>
      absurd hSplit.symm (List.append_ne_nil_of_right_ne_nil pre (List.cons_ne_nil l post))
    rw [linesOut, Option.some_inj, readLines]
    exact ⟨fun hEq => ⟨hNone, hEq.symm⟩, fun hBoth => hBoth.2.symm⟩
  | cons l lines ih =>
    rw [linesOut, noFault_cons, readLines]
    by_cases hNul : 0 ∈ l.text
    · rw [if_pos hNul, List.takeWhile_cons_of_neg (by simpa using hNul), Option.some_inj]
      exact ⟨fun hEq => ⟨fun h => absurd hNul h, hEq.symm⟩, fun hBoth => hBoth.2.symm⟩
    · rw [if_neg hNul, List.takeWhile_cons_of_pos (by simpa using hNul), List.flatMap_cons]
      cases hLine : lineOut (l.text ++ newline :: (tableText lines ++ rest)) (l.text.length + 1) with
      | none => exact ⟨nofun, fun hBoth => absurd (hBoth.1 hNul).1 (by simp)⟩
      | some bytes =>
        obtain rfl := hOut l _ bytes hNul hLine
        rw [Option.bind_some, Option.map_eq_some_iff]
        constructor
        · rintro ⟨more, hMore, rfl⟩
          obtain ⟨hRest, rfl⟩ := ih.mp hMore
          exact ⟨fun _ => ⟨rfl, hRest⟩, rfl⟩
        · rintro ⟨hBoth, rfl⟩
          exact ⟨_, ih.mpr ⟨(hBoth hNul).2, rfl⟩, rfl⟩

end

end DemoCode.FileCrop
