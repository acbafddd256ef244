import Mathlib.Algebra.GroupWithZero.Nat
import Mathlib.Data.List.Basic

/-! Texts of pieces with a delimiter behind each piece, or between them.  Pieces without the delimiter
are read off such a text again. -/

namespace Delimited

variable {α : Type*} {d : α} {p : List α} {ps qs : List (List α)}

/-- Each piece with the delimiter behind it. -/
def ended (d : α) (ps : List (List α)) : List α := ps.flatMap (· ++ [d])

@[simp] theorem ended_nil : ended d [] = [] := rfl

@[simp] theorem ended_cons : ended d (p :: ps) = p ++ d :: ended d ps := by
  rw [ended, List.flatMap_cons, List.append_assoc]
  rfl

@[simp] theorem ended_append : ended d (ps ++ qs) = ended d ps ++ ended d qs := List.flatMap_append

theorem ended_ne_nil (h : ps ≠ []) : ended d ps ≠ [] := by
  obtain ⟨p, ps, rfl⟩ := List.exists_cons_of_ne_nil h
  simp

theorem mem_ended {x : α} : x ∈ ended d ps ↔ ps ≠ [] ∧ x = d ∨ ∃ p ∈ ps, x ∈ p := by
  induction ps with
  | nil => simp
  | cons p ps ih =>
    rw [ended_cons, List.mem_append, List.mem_cons, ih, List.exists_mem_cons_iff]
    have hCons : p :: ps ≠ [] := List.cons_ne_nil p ps
    tauto

theorem length_ended : (ended d ps).length = (ps.map fun p => p.length + 1).sum := by
  induction ps with
  | nil => rfl
  | cons p ps ih =>
    rw [ended_cons, List.map_cons, List.sum_cons, List.length_append, List.length_cons, ih]
    omega

/-- Pieces with the delimiter between them, and one more behind the last. -/
theorem joined_end (h : ps ≠ []) : [d].intercalate ps ++ [d] = ended d ps := by
  induction ps with
  | nil => exact absurd rfl h
  | cons p ps ih =>
    cases ps with
    | nil => simp
    | cons q qs =>
      have hRest := ih (List.cons_ne_nil q qs)
      rw [List.intercalate_cons_cons, List.append_assoc, hRest, List.append_assoc]
      exact ended_cons.symm

/-- Joined pieces are ended ones up to any of them. -/
theorem joined_append (h : qs ≠ []) :
    [d].intercalate (ps ++ qs) = ended d ps ++ [d].intercalate qs := by
  induction ps with
  | nil => rfl
  | cons p ps ih =>
    rw [List.cons_append, List.intercalate_cons_of_ne_nil (List.append_ne_nil_of_right_ne_nil ps h),
      ih, ended_cons]
    simp

theorem mem_joined {x : α} (h : x ∈ [d].intercalate ps) : x = d ∨ ∃ p ∈ ps, x ∈ p := by
  by_cases hNil : ps = []
  · rw [hNil] at h
    cases h
  · have hEnded : x ∈ ended d ps := by
      rw [← joined_end hNil]
      exact List.mem_append_left _ h
    exact (mem_ended.mp hEnded).imp And.right id

theorem mem_joined_of_mem {x : α} (hp : p ∈ ps) (hx : x ∈ p) : x ∈ [d].intercalate ps := by
  obtain ⟨front, back, rfl⟩ := List.append_of_mem hp
  rw [joined_append (List.cons_ne_nil p back)]
  apply List.mem_append_right
  cases back with
  | nil => simpa using hx
  | cons q qs =>
    rw [List.intercalate_cons_cons, List.append_assoc]
    exact List.mem_append_left _ hx

/-! ### Reading the pieces off a text -/

theorem piece_inj {q rest rest' : List α} (hp : d ∉ p) (hq : d ∉ q)
    (h : p ++ d :: rest = q ++ d :: rest') : p = q ∧ rest = rest' := by
  induction p generalizing q with
  | nil =>
    cases q with
    | nil => exact ⟨rfl, (List.cons.inj h).2⟩
    | cons b q => exact absurd (List.cons.inj h).1 (List.ne_of_not_mem_cons hq)
  | cons a p ih =>
    cases q with
    | nil => exact absurd (List.cons.inj h).1.symm (List.ne_of_not_mem_cons hp)
    | cons b q =>
      obtain ⟨hHead, hTail⟩ := List.cons.inj h
      obtain ⟨hPiece, hRest⟩ :=
        ih (List.not_mem_of_not_mem_cons hp) (List.not_mem_of_not_mem_cons hq) hTail
      exact ⟨by rw [hHead, hPiece], hRest⟩

theorem ended_inj (hp : ∀ p ∈ ps, d ∉ p) (hq : ∀ q ∈ qs, d ∉ q) (h : ended d ps = ended d qs) :
    ps = qs := by
  induction ps generalizing qs with
  | nil =>
    cases qs with
    | nil => rfl
    | cons q qs => exact absurd h.symm (ended_ne_nil (List.cons_ne_nil q qs))
  | cons p ps ih =>
    cases qs with
    | nil => exact absurd h (ended_ne_nil (List.cons_ne_nil p ps))
    | cons q qs =>
      rw [ended_cons, ended_cons] at h
      obtain ⟨hFirst, hRest⟩ := piece_inj (hp p List.mem_cons_self) (hq q List.mem_cons_self) h
      rw [hFirst, ih (fun r hr => hp r (List.mem_cons_of_mem p hr))
        (fun r hr => hq r (List.mem_cons_of_mem q hr)) hRest]

theorem joined_inj (hp : ∀ p ∈ ps, d ∉ p) (hq : ∀ q ∈ qs, d ∉ q) (hps : ps ≠ []) (hqs : qs ≠ [])
    (h : [d].intercalate ps = [d].intercalate qs) : ps = qs := by
  apply ended_inj hp hq
  rw [← joined_end hps, ← joined_end hqs, h]

variable [BEq α] [LawfulBEq α]

theorem not_mem_of_mem_splitOn {text : List α} (h : p ∈ text.splitOn d) : d ∉ p := by
  induction text generalizing p with
  | nil =>
    rw [List.splitOn_nil] at h
    rw [List.mem_singleton.mp h]
    exact List.not_mem_nil
  | cons x xs ih =>
    rw [List.splitOn_cons_eq_if_modifyHead] at h
    split at h
    · rcases List.mem_cons.mp h with hFirst | hRest
      · rw [hFirst]
        exact List.not_mem_nil
      · exact ih hRest
    · rename_i hNe
      obtain ⟨q, qs, hSplit⟩ := List.exists_cons_of_ne_nil (List.splitOn_ne_nil d xs)
      rw [hSplit, List.modifyHead_cons, List.mem_cons] at h
      rcases h with hFirst | hRest
      · have hq : d ∉ q := ih (by rw [hSplit]; exact List.mem_cons_self)
        rw [hFirst, List.mem_cons, not_or]
        exact ⟨fun hEq => hNe (beq_iff_eq.mpr hEq.symm), hq⟩
      · exact ih (by rw [hSplit]; exact List.mem_cons_of_mem q hRest)

/-- A text that ends with the delimiter is the pieces before its last one. -/
theorem ended_splitOn {text : List α} (h : text = [] ∨ text.getLast? = some d) :
    ended d (text.splitOn d).dropLast = text := by
  rcases h with rfl | hLast
  · simp
  · obtain ⟨front, rfl⟩ : ∃ front, text = front ++ [d] := List.getLast?_eq_some_iff.mp hLast
    have hSplit : (front ++ [d]).splitOn d = front.splitOn d ++ [[]] := by
      rw [List.splitOn_append_cons_self, List.splitOn_nil]
    rw [hSplit, List.dropLast_concat, ← joined_end (List.splitOn_ne_nil d front),
      List.intercalate_splitOn]

/-! ### A scan for the pieces -/

/-- The pieces of a text as a loop takes them that has read a part of one: empty pieces are left out,
but not the last one. -/
def pieces {α : Type*} [DecidableEq α] (d : α) (part : List α) : List α → List (List α)
  | [] => [part]
  | x :: rest =>
    if x = d then
      if part = [] then pieces d [] rest else part :: pieces d [] rest
    else
      pieces d (part ++ [x]) rest

section

variable {α : Type*} [DecidableEq α] {d : α} {p : List α} {ps : List (List α)}

theorem pieces_skip (part rest : List α) (hp : d ∉ p) :
    pieces d part (p ++ rest) = pieces d (part ++ p) rest := by
  induction p generalizing part with
  | nil => rw [List.nil_append, List.append_nil]
  | cons x p ih =>
    rw [List.mem_cons, not_or] at hp
    rw [List.cons_append, pieces, if_neg (Ne.symm hp.1), ih (part ++ [x]) hp.2, List.append_assoc]
    rfl

/-- Pieces that are joined are scanned again. -/
theorem pieces_joined (hSome : ps ≠ []) (hPiece : ∀ p ∈ ps, p ≠ []) (hDelimiter : ∀ p ∈ ps, d ∉ p) :
    pieces d [] ([d].intercalate ps) = ps := by
  induction ps with
  | nil => exact absurd rfl hSome
  | cons p ps ih =>
    obtain ⟨hHere, hLater⟩ := List.forall_mem_cons.mp hPiece
    obtain ⟨hNot, hNotLater⟩ := List.forall_mem_cons.mp hDelimiter
    cases ps with
    | nil =>
      have hAll := pieces_skip [] [] hNot
      rw [List.append_nil, List.nil_append] at hAll
      rw [List.intercalate_singleton, hAll, pieces]
    | cons q qs =>
      rw [List.intercalate_cons_cons, List.append_assoc, pieces_skip [] _ hNot, List.nil_append,
        List.cons_append, List.nil_append, pieces, if_pos rfl, if_neg hHere,
        ih (List.cons_ne_nil q qs) hLater hNotLater]

end

end Delimited
