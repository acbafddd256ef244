import Mathlib.Data.List.GetD
import DemoCode.FeedProxy.Json
import DemoCode.Lib.Loop

/-! `ColTask::Run` in `col_task.cpp`: it copies some columns of each line of a chunk.  A pointer into
the mapped file is the list of the bytes from there to the end of the mapped memory; reading beyond
this end is a fault, and so is a write in front of the output buffer.  `Run` takes a buffer as large as
the chunk and never looks at its end: here the buffer goes on behind it, so that what is written there
can be counted, and a run is right only if it also `StaysInside`. -/

namespace DemoCode.FileCrop

open FeedProxy (atoi)

def newline : UInt8 := 10

/-- `strchr`: the place of the first `c`, or null when a NUL byte comes before it. -/
def strchr (c : UInt8) : List UInt8 → Option (Option Nat)
  | [] => none
  | b :: bs =>
    if b = c then
      some (some 0)
    else if b = 0 then
      some none
    else
      (strchr c bs).map (Option.map (· + 1))

/-- `BaseTask`, as `Initialize` leaves it. -/
structure ColTask where
  fileMap : List UInt8
  fileSize : Nat
  condition : List Char
  delimiter : UInt8 := ','.toNat.toUInt8

/-! ### The columns asked for -/

/-- A part of the condition: one column, or the first and the last one. -/
def columns (part : List Char) : Nat × Nat :=
  let startCol := part.takeWhile (· ≠ '-')
  let endCol := if '-' ∈ part then (part.dropWhile (· ≠ '-')).tail else part
  let unsigned (cs : List Char) : Nat := ((atoi (String.ofList cs)).emod (2 ^ 32)).toNat
  (unsigned startCol, unsigned endCol)

/-- The loop over the condition, with the text since the last comma: an empty part is skipped, but
not the last one. -/
def conditionVec (part : List Char) : List Char → List (Nat × Nat)
  | [] => [columns part]
  | ',' :: rest => if part = [] then conditionVec [] rest else columns part :: conditionVec [] rest
  | c :: rest => conditionVec (part ++ [c]) rest

/-! ### The fields of a line -/

/-- Where the search in a line stands, with the fields found: the place of each and the size of the
line up to its end. -/
structure Search where
  searchPos : Nat
  preSearchPos : Nat
  res : List (Nat × Nat)

/-- One pass of the search for the next delimiter, which may look beyond the line. -/
def fieldPass (delimiter : UInt8) (lineStart : List UInt8) (lineSize : Nat) (t : Search) :
    Loop.Pass Search Unit (Option (List (Nat × Nat))) :=
  match strchr delimiter (lineStart.drop t.searchPos) with
  | none => .leave [] none
  | some none => .leave [] (some (t.res ++ [(t.preSearchPos, lineSize)]))
  | some (some i) =>
    let searchedSize := t.searchPos + i + 1
    if searchedSize ≥ lineSize then
      .leave [] (some (t.res ++ [(t.preSearchPos, lineSize)]))
    else
      .again [] {
        searchPos := searchedSize
        preSearchPos := searchedSize
        res := t.res ++ [(t.preSearchPos, searchedSize)] }

def fieldBody (delimiter : UInt8) (lineStart : List UInt8) (lineSize : Nat) :
    Loop.Body Search Unit (Option (List (Nat × Nat))) where
  pass := fieldPass delimiter lineStart lineSize
  measure t := lineSize - t.searchPos
  lowers := by
    intro t out t' h
    unfold fieldPass at h
    split at h
    · cases h
    · cases h
    · dsimp only at h
      split at h
      · cases h
      · rename_i hLt
        cases h
        dsimp only
        omega

def fields (delimiter : UInt8) (lineStart : List UInt8) (lineSize : Nat) :
    Option (List (Nat × Nat)) :=
  ((fieldBody delimiter lineStart lineSize).exec ⟨0, 0, []⟩).2

/-! ### The lines of a chunk -/

/-- `memcpy`. -/
def memcpy (out src : List UInt8) (size : Nat) : List UInt8 := out ++ src.take size

/-- The loop over the conditions: the columns of each in turn; a condition that the line does not meet
copies the line and ends it. -/
def copyColumns (lineStart : List UInt8) (lineSize : Nat) (res : List (Nat × Nat)) :
    List (Nat × Nat) → List UInt8 → List UInt8
  | [], out => out
  | (first, second) :: rest, out =>
    if first < res.length ∧ second < res.length ∧ 1 ≤ first ∧ first ≤ second then
      if first = 1 then
        let size := (res.getD (second - 1) (0, 0)).2
        copyColumns lineStart lineSize res rest
          (memcpy out (lineStart.drop (res.getD 0 (0, 0)).1) size)
      else
        let size := (res.getD (second - 1) (0, 0)).2 - (res.getD (first - 2) (0, 0)).2
        copyColumns lineStart lineSize res rest
          (memcpy out (lineStart.drop (res.getD (first - 1) (0, 0)).1) size)
    else
      memcpy out lineStart lineSize

/-- The last byte that was written becomes the end of a line. -/
def endLine (out : List UInt8) : Option (List UInt8) :=
  match out.getLast? with
  | none => none
  | some b => if b ≠ newline then some (out.dropLast ++ [newline]) else some out

/-- Where the loop over the lines stands, with what is written. -/
structure Lines where
  pos : Nat
  lineStart : List UInt8
  out : List UInt8

/-- One pass: one line. -/
def linePass (task : ColTask) (t : Lines) : Loop.Pass Lines Unit (Option (List UInt8)) :=
  if t.pos < task.fileSize then
    match strchr newline t.lineStart with
    | none => .leave [] none
    | some none => .leave [] (some t.out)
    | some (some lineEnd) =>
      let lineSize := lineEnd + 1
      match fields task.delimiter t.lineStart lineSize with
      | none => .leave [] none
      | some res =>
        match endLine (copyColumns t.lineStart lineSize res (conditionVec [] task.condition) t.out) with
        | none => .leave [] none
        | some out =>
          .again [] { pos := t.pos + lineSize, lineStart := t.lineStart.drop lineSize, out }
  else
    .leave [] (some t.out)

def lineBody (task : ColTask) : Loop.Body Lines Unit (Option (List UInt8)) where
  pass := linePass task
  measure t := task.fileSize - t.pos
  lowers := by
    intro t out t' h
    unfold linePass at h
    split at h
    · rename_i hPos
      split at h
      · cases h
      · cases h
      · dsimp only at h
        split at h
        · cases h
        · split at h
          · cases h
          · cases h
            dsimp only
            omega
    · cases h

/-- `Run`, with what it leaves in the new file map. -/
def ColTask.run (task : ColTask) : Option (List UInt8) :=
  ((lineBody task).exec ⟨0, task.fileMap, []⟩).2

/-- No pass copies beyond the end of the buffer. -/
def ColTask.StaysInside (task : ColTask) : Prop :=
  ∀ t, Loop.Reaches (lineBody task).pass ⟨0, task.fileMap, []⟩ t → t.out.length ≤ task.fileSize

/-! ### The search for bytes -/

theorem strchr_append {c : UInt8} {text : List UInt8} (rest : List UInt8) (hIn : c ∈ text)
    (hNul : 0 ∉ text) : strchr c (text ++ rest) = some (some (text.idxOf c)) := by
  induction text with
  | nil => cases hIn
  | cons b bs ih =>
    rw [List.mem_cons, not_or] at hNul
    rw [List.cons_append, strchr]
    by_cases hb : b = c
    · rw [if_pos hb, List.idxOf_cons_eq bs hb]
    · have hRest : c ∈ bs := (List.mem_cons.mp hIn).resolve_left (Ne.symm hb)
      rw [if_neg hb, if_neg (Ne.symm hNul.1), ih hRest hNul.2, List.idxOf_cons_ne bs hb]
      rfl

/-- A byte that comes before any NUL is found. -/
theorem strchr_takeWhile {c : UInt8} {text : List UInt8} (rest : List UInt8)
    (hIn : c ∈ text.takeWhile (· ≠ 0)) : strchr c (text ++ rest) = some (some (text.idxOf c)) := by
  have hNul : 0 ∉ text.takeWhile (· ≠ 0) := fun h0 => absurd (List.mem_takeWhile_imp h0) (by decide)
  have hFound := strchr_append (text.dropWhile (· ≠ 0) ++ rest) hIn hNul
  have hPlace : (text.takeWhile (· ≠ 0) ++ text.dropWhile (· ≠ 0)).idxOf c =
      (text.takeWhile (· ≠ 0)).idxOf c := List.idxOf_append_of_mem hIn
  rw [List.takeWhile_append_dropWhile] at hPlace
  rwa [← List.append_assoc, List.takeWhile_append_dropWhile, ← hPlace] at hFound

/-- A byte that does not come before a NUL or the end is not found in zero bytes either. -/
theorem strchr_missing {c : UInt8} {text : List UInt8} (padding : Nat) (hc : c ≠ 0)
    (hNot : c ∉ text.takeWhile (· ≠ 0)) {i : Nat} :
    strchr c (text ++ List.replicate padding 0) ≠ some (some i) := by
  induction text generalizing i with
  | nil =>
    cases padding with
    | zero => nofun
    | succ padding =>
      rw [List.nil_append, List.replicate_succ, strchr, if_neg (Ne.symm hc), if_pos rfl]
      nofun
  | cons b bs ih =>
    rw [List.cons_append, strchr]
    by_cases hb : b = 0
    · rw [if_neg (by rw [hb]; exact Ne.symm hc), if_pos hb]
      nofun
    · rw [List.takeWhile_cons_of_pos (by simpa using hb), List.mem_cons, not_or] at hNot
      rw [if_neg (Ne.symm hNot.1), if_neg hb]
      intro hFound
      obtain ⟨r, hRest, hMap⟩ := Option.map_eq_some_iff.mp hFound
      obtain ⟨j, rfl, -⟩ := Option.map_eq_some_iff.mp hMap
      exact ih hNot.2 hRest

theorem strchr_skip {c : UInt8} {s : List UInt8} (rest : List UInt8) (hNot : c ∉ s) (hNul : 0 ∉ s) :
    strchr c (s ++ rest) = (strchr c rest).map (Option.map (s.length + ·)) := by
  induction s with
  | nil => simp [Option.map_id_fun']
  | cons b bs ih =>
    rw [List.mem_cons, not_or] at hNot hNul
    rw [List.cons_append, strchr, if_neg (Ne.symm hNot.1), if_neg (Ne.symm hNul.1),
      ih hNot.2 hNul.2, Option.map_map]
    congr 1
    funext r
    simp only [Function.comp_apply, Option.map_map, List.length_cons]
    congr 1
    funext i
    exact Nat.add_right_comm bs.length i 1

theorem strchr_nul {c : UInt8} {s : List UInt8} (rest : List UInt8) (hNot : c ∉ s) (hNul : 0 ∈ s) :
    strchr c (s ++ rest) = some none := by
  induction s with
  | nil => cases hNul
  | cons b bs ih =>
    rw [List.mem_cons, not_or] at hNot
    rw [List.cons_append, strchr, if_neg (Ne.symm hNot.1)]
    by_cases hb : b = 0
    · rw [if_pos hb]
    · rw [if_neg hb, ih hNot.2 ((List.mem_cons.mp hNul).resolve_left (Ne.symm hb))]
      rfl

theorem strchr_isSome {c : UInt8} {s : List UInt8} : (strchr c s).isSome ↔ c ∈ s ∨ 0 ∈ s := by
  induction s with
  | nil => simp [strchr]
  | cons b bs ih =>
    rw [strchr, List.mem_cons, List.mem_cons]
    split
    · rename_i hb
      simp [hb]
    · rename_i hb
      split
      · rename_i hNul
        simp [hNul]
      · rename_i hNul
        rw [Option.isSome_map, ih]
        simp [Ne.symm hb, Ne.symm hNul]

/-! ### The fields of a line are not empty -/

/-- Fields found so far: each ends behind its start, and behind the one before it. -/
structure Fields (lineSize : Nat) (res : List (Nat × Nat)) : Prop where
  pos : ∀ x ∈ res, x.1 < x.2
  le : ∀ x ∈ res, x.2 ≤ lineSize
  sorted : res.Pairwise fun x y => x.2 < y.2

theorem Fields.snoc {lineSize lineSize' : Nat} {res : List (Nat × Nat)} {x : Nat × Nat}
    (h : Fields lineSize res) (hx : x.1 < x.2) (hLt : lineSize < x.2) (hLe : x.2 ≤ lineSize') :
    Fields lineSize' (res ++ [x]) := by
  constructor
  · intro y hy
    rcases List.mem_append.mp hy with hOld | hNew
    · exact h.pos y hOld
    · rw [List.mem_singleton.mp hNew]
      exact hx
  · intro y hy
    rcases List.mem_append.mp hy with hOld | hNew
    · have := h.le y hOld
      omega
    · rw [List.mem_singleton.mp hNew]
      exact hLe
  · rw [List.pairwise_append]
    refine ⟨h.sorted, List.pairwise_singleton _ _, fun y hy z hz => ?_⟩
    rw [List.mem_singleton.mp hz]
    exact Nat.lt_of_le_of_lt (h.le y hy) hLt

theorem fields_fields {delimiter : UInt8} {lineStart : List UInt8} {lineSize : Nat}
    (hPos : 0 < lineSize) {res : List (Nat × Nat)}
    (h : fields delimiter lineStart lineSize = some res) : Fields lineSize res ∧ res ≠ [] := by
  let I : Search → Prop := fun t =>
    t.preSearchPos = t.searchPos ∧ t.searchPos < lineSize ∧ Fields t.searchPos t.res
  let Q : Option (List (Nat × Nat)) → Prop := fun r =>
    ∀ res, r = some res → Fields lineSize res ∧ res ≠ []
  have hStart : I ⟨0, 0, []⟩ :=
    ⟨rfl, hPos, by simp, by simp, List.Pairwise.nil⟩
  have hResult : Q ((fieldBody delimiter lineStart lineSize).exec ⟨0, 0, []⟩).2 := by
    have hLast : ∀ t, I t → Q (some (t.res ++ [(t.preSearchPos, lineSize)])) := by
      rintro t ⟨hPre, hLt, hFields⟩ res hRes
      obtain rfl := Option.some.inj hRes
      exact ⟨hFields.snoc (hPre ▸ hLt) hLt (Nat.le_refl _), by simp⟩
    apply Loop.Body.exec_invariant (I := I) (Q := Q) _ _ _ hStart
    · intro t out t' hI hPass
      have hKeep := hI
      obtain ⟨hPre, hLt, hFields⟩ := hKeep
      change fieldPass delimiter lineStart lineSize t = .again out t' at hPass
      unfold fieldPass at hPass
      split at hPass
      · cases hPass
      · cases hPass
      · dsimp only at hPass
        split at hPass
        · cases hPass
        · rename_i i _ hShort
          cases hPass
          refine ⟨rfl, by dsimp only; omega, hFields.snoc ?_ ?_ (Nat.le_refl _)⟩ <;>
            dsimp only <;> omega
    · intro t out r hI hPass
      change fieldPass delimiter lineStart lineSize t = .leave out r at hPass
      unfold fieldPass at hPass
      split at hPass
      · cases hPass
        rintro res ⟨⟩
      · cases hPass
        exact hLast t hI
      · dsimp only at hPass
        split at hPass
        · cases hPass
          exact hLast t hI
        · cases hPass
  exact hResult res h

theorem Fields.getD {lineSize : Nat} {res : List (Nat × Nat)} (h : Fields lineSize res) {j : Nat}
    (hj : j < res.length) :
    (res.getD j (0, 0)).1 < (res.getD j (0, 0)).2 ∧ (res.getD j (0, 0)).2 ≤ lineSize := by
  rw [List.getD_eq_getElem _ _ hj]
  exact ⟨h.pos _ (List.getElem_mem hj), h.le _ (List.getElem_mem hj)⟩

theorem Fields.getD_lt {lineSize : Nat} {res : List (Nat × Nat)} (h : Fields lineSize res)
    {i j : Nat} (hij : i < j) (hj : j < res.length) :
    (res.getD i (0, 0)).2 < (res.getD j (0, 0)).2 := by
  rw [List.getD_eq_getElem _ _ hj, List.getD_eq_getElem _ _ (Nat.lt_trans hij hj)]
  exact List.pairwise_iff_getElem.mp h.sorted i j _ hj hij

/-! ### The bytes that a line adds -/

theorem copyColumns_out (lineStart : List UInt8) (lineSize : Nat) (res conds : List (Nat × Nat))
    (out : List UInt8) : copyColumns lineStart lineSize res conds out =
      out ++ copyColumns lineStart lineSize res conds [] := by
  induction conds generalizing out with
  | nil => simp [copyColumns]
  | cons c conds ih =>
    obtain ⟨first, second⟩ := c
    simp only [copyColumns]
    split
    · split
      · rw [ih (memcpy out _ _), ih (memcpy [] _ _)]
        simp [memcpy]
      · rw [ih (memcpy out _ _), ih (memcpy [] _ _)]
        simp [memcpy]
    · simp [memcpy]

theorem memcpy_ne_nil {src : List UInt8} {start size : Nat} (hStart : start < src.length)
    (hSize : 0 < size) : memcpy [] (src.drop start) size ≠ [] := by
  intro hNil
  have hLength := congrArg List.length hNil
  simp only [memcpy, List.nil_append, List.length_take, List.length_drop, List.length_nil] at hLength
  omega

/-- Every line adds some byte. -/
theorem copyColumns_ne_nil {lineStart : List UInt8} {lineSize : Nat} {res conds : List (Nat × Nat)}
    (hLine : lineSize ≤ lineStart.length) (hPos : 0 < lineSize) (hFields : Fields lineSize res)
    (hConds : conds ≠ []) : copyColumns lineStart lineSize res conds [] ≠ [] := by
  obtain ⟨⟨first, second⟩, conds, rfl⟩ := List.exists_cons_of_ne_nil hConds
  simp only [copyColumns]
  split
  · rename_i hValid
    obtain ⟨hFirst, hSecond, hOne, hLe⟩ := hValid
    split
    · obtain ⟨hStart, hEnd⟩ := hFields.getD (j := 0) (by omega)
      have hSize := hFields.getD (j := second - 1) (by omega)
      rw [copyColumns_out]
      exact List.append_ne_nil_of_left_ne_nil (memcpy_ne_nil (by omega) (by omega)) _
    · obtain ⟨hStart, hEnd⟩ := hFields.getD (j := first - 1) (by omega)
      have hSize := hFields.getD_lt (i := first - 2) (j := second - 1) (by omega) (by omega)
      rw [copyColumns_out]
      exact List.append_ne_nil_of_left_ne_nil (memcpy_ne_nil (by omega) (by omega)) _
  · have hAll : memcpy [] (lineStart.drop 0) lineSize ≠ [] := memcpy_ne_nil (by omega) hPos
    simpa [memcpy] using hAll

theorem conditionVec_ne_nil (part cond : List Char) : conditionVec part cond ≠ [] := by
  fun_induction conditionVec part cond with
  | case1 => simp
  | case2 rest ih => exact ih
  | case3 part rest hPart ih => simp
  | case4 part c rest hc ih => exact ih

theorem endLine_append (out : List UInt8) {bytes : List UInt8} (h : bytes ≠ []) :
    endLine (out ++ bytes) = (endLine bytes).map (out ++ ·) := by
  obtain ⟨front, b, rfl⟩ := (List.eq_nil_or_concat bytes).resolve_left h
  rw [List.concat_eq_append, endLine, endLine, ← List.append_assoc, List.getLast?_concat,
    List.getLast?_concat]
  dsimp only
  split <;> simp

/-- What a line adds to the new file: nothing that is not in the line decides it. -/
def lineOut (task : ColTask) (lineStart : List UInt8) (lineSize : Nat) : Option (List UInt8) := do
  let res ← fields task.delimiter lineStart lineSize
  endLine (copyColumns lineStart lineSize res (conditionVec [] task.condition) [])

theorem strchr_lt {c : UInt8} {s : List UInt8} {i : Nat} (h : strchr c s = some (some i)) :
    i < s.length := by
  induction s generalizing i with
  | nil => cases h
  | cons b bs ih =>
    rw [strchr] at h
    split at h
    · cases h
      exact Nat.zero_lt_succ _
    · split at h
      · cases h
      · obtain ⟨r, hRest, hMap⟩ := Option.map_eq_some_iff.mp h
        obtain ⟨j, rfl, rfl⟩ := Option.map_eq_some_iff.mp hMap
        exact Nat.succ_lt_succ (ih hRest)

/-- One pass of a loop over lines, from what it writes for a line. -/
def linesPass (fileSize : Nat) (lineOut : List UInt8 → Nat → Option (List UInt8)) (t : Lines) :
    Loop.Pass Lines Unit (Option (List UInt8)) :=
  if t.pos < fileSize then
    match strchr newline t.lineStart with
    | none => .leave [] none
    | some none => .leave [] (some t.out)
    | some (some lineEnd) =>
      match lineOut t.lineStart (lineEnd + 1) with
      | none => .leave [] none
      | some bytes => .again [] {
          pos := t.pos + (lineEnd + 1)
          lineStart := t.lineStart.drop (lineEnd + 1)
          out := t.out ++ bytes }
  else
    .leave [] (some t.out)

/-- A pass adds the bytes of its line behind those that are written. -/
theorem linePass_eq (task : ColTask) (t : Lines) :
    linePass task t = linesPass task.fileSize (lineOut task) t := by
  unfold linePass linesPass
  split
  · cases hEnd : strchr newline t.lineStart with
    | none => rfl
    | some r =>
      cases r with
      | none => rfl
      | some lineEnd =>
        dsimp only [lineOut]
        cases hFields : fields task.delimiter t.lineStart (lineEnd + 1) with
        | none => rfl
        | some res =>
          have hSome := copyColumns_ne_nil (strchr_lt hEnd) (Nat.succ_pos lineEnd)
            (fields_fields (Nat.succ_pos lineEnd) hFields).1 (conditionVec_ne_nil [] task.condition)
          dsimp only [Option.bind_eq_bind, Option.bind_some]
          rw [copyColumns_out, endLine_append t.out hSome]
          cases endLine (copyColumns t.lineStart (lineEnd + 1) res
            (conditionVec [] task.condition) []) <;> rfl
  · rfl

theorem lineBody_pass (task : ColTask) (t : Lines) : (lineBody task).pass t = linePass task t := rfl

/-! ### The end of the buffer -/

variable {fileSize : Nat} {bytesOut : List UInt8 → Nat → Option (List UInt8)} {events : List Unit}

/-- A loop over lines that is left with a result leaves what was written before. -/
theorem out_of_leave {t : Lines} {out : List UInt8}
    (h : linesPass fileSize bytesOut t = .leave events (some out)) : out = t.out := by
  unfold linesPass at h
  split at h
  · split at h
    · cases h
    · cases h
      rfl
    · split at h <;> cases h
  · cases h
    rfl

/-- A pass takes nothing back. -/
theorem length_out_of_again {t t' : Lines} (h : linesPass fileSize bytesOut t = .again events t') :
    t.out.length ≤ t'.out.length := by
  unfold linesPass at h
  split at h
  · split at h
    · cases h
    · cases h
    · split at h
      · cases h
      · cases h
        exact List.length_append ▸ Nat.le_add_right _ _
  · cases h

/-- A loop that returns has written no more at any time than in the end. -/
theorem reaches_out_iff (task : ColTask) (bound : Nat) (t : Lines) {out : List UInt8}
    (h : ((lineBody task).exec t).2 = some out) :
    (∀ u, Loop.Reaches (lineBody task).pass t u → u.out.length ≤ bound) ↔ out.length ≤ bound := by
  have hLines (t : Lines) : (lineBody task).pass t = linesPass task.fileSize (lineOut task) t :=
    (lineBody_pass task t).trans (linePass_eq task t)
  induction t using (lineBody task).induct with
  | leave t events r hPass =>
    rw [(lineBody task).exec_leave hPass] at h
    dsimp only at h
    subst h
    rw [Loop.forall_reaches_leave hPass, out_of_leave ((hLines t).symm.trans hPass)]
  | again t events t' hPass ih =>
    have hGrows := length_out_of_again ((hLines t).symm.trans hPass)
    rw [(lineBody task).exec_again hPass] at h
    have hRest : (∀ u, Loop.Reaches (lineBody task).pass t' u → u.out.length ≤ bound) ↔
        out.length ≤ bound := ih h
    rw [Loop.forall_reaches_again hPass, and_iff_right_of_imp, hRest]
    exact fun hAll => hGrows.trans (hAll t' .refl)

/-- **A run that returns** stays inside its buffer exactly when what it leaves there fits. -/
theorem staysInside_iff {task : ColTask} {out : List UInt8} (h : task.run = some out) :
    task.StaysInside ↔ out.length ≤ task.fileSize :=
  reaches_out_iff task task.fileSize _ h

/-! ### Where the lines start does not matter -/

/-- What is written before a line stays in front of what the lines add. -/
theorem exec_out (task : ColTask) (out : List UInt8) (t : Lines) :
    ((lineBody task).exec { t with out := out ++ t.out }).2 =
      ((lineBody task).exec t).2.map (out ++ ·) := by
  have hPass (t : Lines) : (lineBody task).pass { t with out := out ++ t.out } =
      ((lineBody task).pass t).map (fun t => { t with out := out ++ t.out }) (fun _ => [])
        (Option.map (out ++ ·)) := by
    rw [lineBody_pass, lineBody_pass, linePass_eq, linePass_eq]
    unfold linesPass
    dsimp only
    split
    · split
      · rfl
      · rfl
      · split
        · rfl
        · simp [Loop.Pass.map]
    · rfl
  rw [(lineBody task).exec_map (lineBody task) hPass t]

/-- Counting the bytes of the chunk from another place changes nothing. -/
theorem exec_shift (task : ColTask) (n : Nat) (t : Lines) :
    ((lineBody { task with fileSize := n + task.fileSize }).exec { t with pos := n + t.pos }).2 =
      ((lineBody task).exec t).2 := by
  let moved := lineBody { task with fileSize := n + task.fileSize }
  have hPass (t : Lines) : moved.pass { t with pos := n + t.pos } =
      ((lineBody task).pass t).map (fun t => { t with pos := n + t.pos }) (fun _ => []) id := by
    rw [lineBody_pass, lineBody_pass, linePass_eq, linePass_eq]
    have hPos : n + t.pos < n + task.fileSize ↔ t.pos < task.fileSize := by omega
    unfold linesPass
    dsimp only
    rw [if_congr hPos rfl rfl]
    split
    · split
      · rfl
      · rfl
      · change _ = Loop.Pass.map _ _ _ _
        unfold lineOut
        dsimp only
        split
        · rfl
        · simp [Loop.Pass.map, Nat.add_assoc]
    · rfl
  have hMap := (lineBody task).exec_map moved hPass t
  change (moved.exec _).2 = _
  rw [hMap]
  rfl

/-- Text of whole lines. -/
structure WholeLines (text : List UInt8) : Prop where
  noNul : 0 ∉ text
  ends : text = [] ∨ text.getLast? = some newline

theorem WholeLines.drop {text : List UInt8} (h : WholeLines text) (n : Nat) :
    WholeLines (text.drop n) := by
  refine ⟨fun hIn => h.noNul (List.mem_of_mem_drop hIn), ?_⟩
  by_cases hn : text.length ≤ n
  · left
    exact List.drop_eq_nil_of_le hn
  · right
    rcases h.ends with rfl | hLast
    · simp at hn
    · rw [List.getLast?_drop, if_neg hn, hLast]

theorem WholeLines.newline_mem {text : List UInt8} (h : WholeLines text) (hSome : text ≠ []) :
    newline ∈ text :=
  List.mem_of_mem_getLast? (h.ends.resolve_left hSome)

/-- The loop does the first line of a text. -/
theorem exec_line (task : ColTask) {text : List UInt8} (h : WholeLines text) (hSome : text ≠ [])
    (rest : List UInt8) {pos : Nat} (hPos : pos < task.fileSize) (out : List UInt8) :
    ((lineBody task).exec ⟨pos, text ++ rest, out⟩).2 =
      (lineOut task (text ++ rest) (text.idxOf newline + 1)).bind fun bytes =>
        ((lineBody task).exec ⟨pos + (text.idxOf newline + 1),
          text.drop (text.idxOf newline + 1) ++ rest, out ++ bytes⟩).2 := by
  have hIn := h.newline_mem hSome
  have hEnd := strchr_append rest hIn h.noNul
  have hDrop : (text ++ rest).drop (text.idxOf newline + 1) =
      text.drop (text.idxOf newline + 1) ++ rest :=
    List.drop_append_of_le_length (List.idxOf_lt_length_of_mem hIn)
  have hPass := linePass_eq task ⟨pos, text ++ rest, out⟩
  rw [linesPass, if_pos hPos, hEnd] at hPass
  dsimp only at hPass
  rw [hDrop] at hPass
  cases hOut : lineOut task (text ++ rest) (text.idxOf newline + 1) with
  | none =>
    rw [hOut] at hPass
    rw [(lineBody task).exec_leave hPass]
    rfl
  | some bytes =>
    rw [hOut] at hPass
    rw [(lineBody task).exec_again hPass]
    rfl

/-- The lines of a text are done first, and then those behind it. -/
theorem exec_append (task : ColTask) {text : List UInt8} (h : WholeLines text) (rest : List UInt8)
    {pos : Nat} (hSize : pos + text.length ≤ task.fileSize) (out : List UInt8) :
    ((lineBody task).exec ⟨pos, text ++ rest, out⟩).2 =
      ((lineBody { task with fileSize := pos + text.length }).exec ⟨pos, text ++ rest, out⟩).2.bind
        fun out' => ((lineBody task).exec ⟨pos + text.length, rest, out'⟩).2 := by
  induction hn : text.length using Nat.strongRecOn generalizing text pos out with
  | ind n ih =>
    subst hn
    by_cases hNil : text = []
    · subst hNil
      have hLeave : (lineBody { task with fileSize := pos }).pass ⟨pos, rest, out⟩ =
          .leave [] (some out) := if_neg (Nat.lt_irrefl pos)
      simp only [List.length_nil, List.nil_append, Nat.add_zero]
      rw [(lineBody { task with fileSize := pos }).exec_leave hLeave, Option.bind_some]
    · have hPos : 0 < text.length := List.length_pos_iff.mpr hNil
      have hLine := List.idxOf_lt_length_of_mem (h.newline_mem hNil)
      have hLength : (text.drop (text.idxOf newline + 1)).length =
          text.length - (text.idxOf newline + 1) := List.length_drop
      have hEnd : pos + (text.idxOf newline + 1) + (text.drop (text.idxOf newline + 1)).length =
          pos + text.length := by omega
      rw [exec_line task h hNil rest (by omega) out,
        exec_line { task with fileSize := pos + text.length } h hNil rest (Nat.lt_add_of_pos_right hPos)
          out, Option.bind_assoc]
      -- the line is done in the same way, whatever the size of the chunk
      change (lineOut task _ _).bind _ = (lineOut task _ _).bind _
      congr 1
      funext bytes
      have hRest := ih _ (by omega) (h.drop (text.idxOf newline + 1))
        (Nat.le_trans (Nat.le_of_eq hEnd) hSize) (out ++ bytes) rfl
      rw [hEnd] at hRest
      exact hRest

end DemoCode.FileCrop
