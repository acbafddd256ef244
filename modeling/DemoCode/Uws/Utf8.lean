import DemoCode.Lib.Utf8

/-! `isValidUtf8` in `WebSocketProtocol.h`.  The bytes from `s` up to `e` are the list that is left;
where the source tests `s + k >= e` before it reads, the list has no such byte. -/

namespace DemoCode.Uws

/-- `while (!(*s & 0x80))`: the end of the text when nothing is left. -/
def skipAscii : List UInt8 → List UInt8
  | [] => []
  | b :: s => if b &&& 0x80 = 0 then skipAscii s else b :: s

/-- The size of the character at `s`, which is not ASCII; nothing where `false` is returned. -/
def multibyte : List UInt8 → Option ℕ
  | [] => none
  | s0 :: s =>
    if s0 &&& 0x60 = 0x40 then
      match s with
      | s1 :: _ => if s1 &&& 0xc0 ≠ 0x80 ∨ s0 &&& 0xfe = 0xc0 then none else some 2
      | [] => none
    else if s0 &&& 0xf0 = 0xe0 then
      match s with
      | s1 :: s2 :: _ =>
        if s1 &&& 0xc0 ≠ 0x80 ∨ s2 &&& 0xc0 ≠ 0x80 ∨ (s0 = 0xe0 ∧ s1 &&& 0xe0 = 0x80) ∨
            (s0 = 0xed ∧ s1 &&& 0xe0 = 0xa0) then none
        else some 3
      | _ => none
    else if s0 &&& 0xf8 = 0xf0 then
      match s with
      | s1 :: s2 :: s3 :: _ =>
        if s1 &&& 0xc0 ≠ 0x80 ∨ s2 &&& 0xc0 ≠ 0x80 ∨ s3 &&& 0xc0 ≠ 0x80 ∨
            (s0 = 0xf0 ∧ s1 &&& 0xf0 = 0x80) ∨ (s0 = 0xf4 ∧ 0x8f < s1) ∨ 0xf4 < s0 then none
        else some 4
      | _ => none
    else none

/-- Four bytes are left, and all of them are ASCII. -/
def fourAscii : List UInt8 → Bool
  | s0 :: s1 :: s2 :: s3 :: _ =>
    s0 &&& 0x80 = 0 && s1 &&& 0x80 = 0 && s2 &&& 0x80 = 0 && s3 &&& 0x80 = 0
  | _ => false

/-- The loop, with a bound on its passes. -/
def validFrom : ℕ → List UInt8 → Bool
  | 0, s => s.isEmpty
  | fuel + 1, s =>
    if s.isEmpty then true
    else if fourAscii s then validFrom fuel (s.drop 4)
    else
      let s' := skipAscii s
      if s'.isEmpty then true
      else
        match multibyte s' with
        | none => false
        | some n => validFrom fuel (s'.drop n)

def isValidUtf8 (s : List UInt8) : Bool := validFrom s.length s

/-! ### Bytes -/

theorem forall_byte {P : UInt8 → Prop} (h : ∀ n : Fin 256, P (UInt8.ofNat n)) (b : UInt8) : P b := by
  have hb := h ⟨b.toNat, b.toNat_lt⟩
  rwa [UInt8.ofNat_toNat] at hb

/-- What the tests of a byte say of its number. -/
def BitTests (b : UInt8) : Prop :=
  (b &&& 0x80 = 0 ↔ b.toNat < 0x80) ∧
  (0x80 ≤ b.toNat → (b &&& 0x60 = 0x40 ↔ 0xC0 ≤ b.toNat ∧ b.toNat ≤ 0xDF)) ∧
  (b &&& 0xf0 = 0xe0 ↔ 0xE0 ≤ b.toNat ∧ b.toNat ≤ 0xEF) ∧
  (b &&& 0xf8 = 0xf0 ↔ 0xF0 ≤ b.toNat ∧ b.toNat ≤ 0xF7) ∧
  (b &&& 0xfe = 0xc0 ↔ 0xC0 ≤ b.toNat ∧ b.toNat ≤ 0xC1) ∧
  (b &&& 0xc0 = 0x80 ↔ 0x80 ≤ b.toNat ∧ b.toNat ≤ 0xBF) ∧
  (b &&& 0xe0 = 0x80 ↔ 0x80 ≤ b.toNat ∧ b.toNat ≤ 0x9F) ∧
  (b &&& 0xe0 = 0xa0 ↔ 0xA0 ≤ b.toNat ∧ b.toNat ≤ 0xBF) ∧
  (b &&& 0xf0 = 0x80 ↔ 0x80 ≤ b.toNat ∧ b.toNat ≤ 0x8F)

theorem bitTests : ∀ b : UInt8, BitTests b :=
  forall_byte (by unfold BitTests; decide +kernel)

theorem and_80 (b : UInt8) : b &&& 0x80 = 0 ↔ b.toNat < 0x80 := (bitTests b).1

theorem and_60 (b : UInt8) :
    0x80 ≤ b.toNat → (b &&& 0x60 = 0x40 ↔ 0xC0 ≤ b.toNat ∧ b.toNat ≤ 0xDF) :=
  (bitTests b).2.1

theorem and_f0 (b : UInt8) : b &&& 0xf0 = 0xe0 ↔ 0xE0 ≤ b.toNat ∧ b.toNat ≤ 0xEF :=
  (bitTests b).2.2.1

theorem and_f8 (b : UInt8) : b &&& 0xf8 = 0xf0 ↔ 0xF0 ≤ b.toNat ∧ b.toNat ≤ 0xF7 :=
  (bitTests b).2.2.2.1

theorem and_fe (b : UInt8) : b &&& 0xfe = 0xc0 ↔ 0xC0 ≤ b.toNat ∧ b.toNat ≤ 0xC1 :=
  (bitTests b).2.2.2.2.1

theorem and_c0 (b : UInt8) : b &&& 0xc0 = 0x80 ↔ Utf8.Tail b := (bitTests b).2.2.2.2.2.1

theorem and_e0_80 (b : UInt8) : b &&& 0xe0 = 0x80 ↔ 0x80 ≤ b.toNat ∧ b.toNat ≤ 0x9F :=
  (bitTests b).2.2.2.2.2.2.1

theorem and_e0_a0 (b : UInt8) : b &&& 0xe0 = 0xa0 ↔ 0xA0 ≤ b.toNat ∧ b.toNat ≤ 0xBF :=
  (bitTests b).2.2.2.2.2.2.2.1

theorem and_f0_80 (b : UInt8) : b &&& 0xf0 = 0x80 ↔ 0x80 ≤ b.toNat ∧ b.toNat ≤ 0x8F :=
  (bitTests b).2.2.2.2.2.2.2.2

/-! ### Characters -/

variable {s t : List UInt8}

theorem skipAscii_spec (s : List UInt8) :
    ∃ a, s = a ++ skipAscii s ∧ (∀ b ∈ a, b.toNat < 0x80) ∧
      ∀ b t, skipAscii s = b :: t → 0x80 ≤ b.toNat := by
  induction s with
  | nil => exact ⟨[], rfl, by simp, by simp [skipAscii]⟩
  | cons b s ih =>
    by_cases hb : b &&& 0x80 = 0
    · obtain ⟨a, hs, ha, hNext⟩ := ih
      rw [skipAscii, if_pos hb]
      refine ⟨b :: a, by rw [List.cons_append, ← hs], ?_, hNext⟩
      exact List.forall_mem_cons.mpr ⟨(and_80 b).mp hb, ha⟩
    · rw [skipAscii, if_neg hb]
      refine ⟨[], rfl, by simp, fun c t h => ?_⟩
      obtain ⟨rfl, -⟩ := List.cons.inj h
      exact Nat.le_of_not_lt fun hLt => hb ((and_80 _).mpr hLt)

/-- A character that `multibyte` measures is one. -/
theorem encoding_of_multibyte {n : ℕ} (hHigh : ∀ b t, s = b :: t → 0x80 ≤ b.toNat)
    (h : multibyte s = some n) : ∃ e t, s = e ++ t ∧ Utf8.Encoding e ∧ e.length = n := by
  cases s with
  | nil => cases h
  | cons s0 s =>
    have h0 := hHigh s0 s rfl
    simp only [multibyte] at h
    split at h
    · next hTwo =>
      cases s with
      | nil => cases h
      | cons s1 t =>
        obtain ⟨hNot, rfl⟩ := Option.ite_none_left_eq_some.mp h |>.imp_right Option.some.inj
        rw [not_or, not_not, and_c0, and_fe] at hNot
        rw [and_60 s0 h0] at hTwo
        exact ⟨[s0, s1], t, rfl, .two (by omega) hTwo.2 hNot.1, rfl⟩
    split at h
    · next hThree =>
      rcases s with _ | ⟨s1, _ | ⟨s2, t⟩⟩
      · cases h
      · cases h
      · obtain ⟨hNot, rfl⟩ := Option.ite_none_left_eq_some.mp h |>.imp_right Option.some.inj
        simp only [not_or, not_not, not_and, and_c0, and_e0_80, and_e0_a0] at hNot
        obtain ⟨h1, h2, hMin, hMax⟩ := hNot
        rw [and_f0] at hThree
        refine ⟨[s0, s1, s2], t, rfl, .three hThree.1 hThree.2 (fun hE => ?_) (fun hE => ?_) h1 h2,
          rfl⟩
        · have hSmall := hMin (UInt8.toNat_inj.mp hE) h1.1
          omega
        · by_contra hBig
          exact hMax (UInt8.toNat_inj.mp hE) (by omega) h1.2
    split at h
    · next hFour =>
      rcases s with _ | ⟨s1, _ | ⟨s2, _ | ⟨s3, t⟩⟩⟩
      · cases h
      · cases h
      · cases h
      · obtain ⟨hNot, rfl⟩ := Option.ite_none_left_eq_some.mp h |>.imp_right Option.some.inj
        simp only [not_or, not_not, not_and, and_c0, and_f0_80] at hNot
        obtain ⟨h1, h2, h3, hMin, hMax, hTop⟩ := hNot
        rw [and_f8] at hFour
        have hLe : s0.toNat ≤ 0xf4 := UInt8.le_iff_toNat_le.mp (UInt8.not_lt.mp hTop)
        refine ⟨[s0, s1, s2, s3], t, rfl, .four hFour.1 hLe (fun hE => ?_) (fun hE => ?_) h1 h2 h3,
          rfl⟩
        · have hSmall := hMin (UInt8.toNat_inj.mp hE) h1.1
          omega
        · have hBig : s1.toNat ≤ 0x8f :=
            UInt8.le_iff_toNat_le.mp (UInt8.not_lt.mp (hMax (UInt8.toNat_inj.mp hE)))
          omega
    · cases h

/-- A character is measured by `multibyte`. -/
theorem multibyte_of_encoding {e : List UInt8} (he : Utf8.Encoding e)
    (hHigh : ∀ b t, e ++ s = b :: t → 0x80 ≤ b.toNat) : multibyte (e ++ s) = some e.length := by
  cases he with
  | @one a ha => exact absurd (hHigh a s rfl) (by omega)
  | @two a b hLow hTop hb =>
    have hTwo := (and_60 a (by omega)).mpr ⟨by omega, hTop⟩
    have hFe : ¬a &&& 0xfe = 0xc0 := by rw [and_fe]; omega
    simp [multibyte, hTwo, hFe, (and_c0 b).mpr hb]
  | @three a b d hLow hTop hMin hMax hb hd =>
    have hTwo : ¬a &&& 0x60 = 0x40 := by rw [and_60 a (by omega)]; omega
    have hThree := (and_f0 a).mpr ⟨hLow, hTop⟩
    have hNotMin : ¬(a = 0xe0 ∧ b &&& 0xe0 = 0x80) := by
      rintro ⟨rfl, hSmall⟩
      have hBig := hMin rfl
      rw [and_e0_80] at hSmall
      omega
    have hNotMax : ¬(a = 0xed ∧ b &&& 0xe0 = 0xa0) := by
      rintro ⟨rfl, hBig⟩
      have hSmall := hMax rfl
      rw [and_e0_a0] at hBig
      omega
    simp [multibyte, hTwo, hThree, (and_c0 b).mpr hb, (and_c0 d).mpr hd, hNotMin, hNotMax]
  | @four a b d e hLow hTop hMin hMax hb hd he =>
    have hTwo : ¬a &&& 0x60 = 0x40 := by rw [and_60 a (by omega)]; omega
    have hThree : ¬a &&& 0xf0 = 0xe0 := by rw [and_f0]; omega
    have hFour := (and_f8 a).mpr ⟨hLow, by omega⟩
    have hNotMin : ¬(a = 0xf0 ∧ b &&& 0xf0 = 0x80) := by
      rintro ⟨rfl, hSmall⟩
      have hBig := hMin rfl
      rw [and_f0_80] at hSmall
      omega
    have hNotMax : ¬(a = 0xf4 ∧ 0x8f < b) := by
      rintro ⟨rfl, hBig⟩
      have hSmall := hMax rfl
      have hNumber : 0x8f < b.toNat := UInt8.lt_iff_toNat_lt.mp hBig
      omega
    have hNotTop : ¬0xf4 < a := by
      intro hBig
      have hNumber : 0xf4 < a.toNat := UInt8.lt_iff_toNat_lt.mp hBig
      omega
    simp [multibyte, hTwo, hThree, hFour, (and_c0 b).mpr hb, (and_c0 d).mpr hd, (and_c0 e).mpr he,
      hNotMin, hNotMax, hNotTop]

theorem fourAscii_spec (h : fourAscii s = true) :
    ∃ a, s = a ++ s.drop 4 ∧ a.length = 4 ∧ ∀ b ∈ a, b.toNat < 0x80 := by
  rcases s with _ | ⟨s0, _ | ⟨s1, _ | ⟨s2, _ | ⟨s3, t⟩⟩⟩⟩ <;> simp only [fourAscii] at h
  · cases h
  · cases h
  · cases h
  · cases h
  · refine ⟨[s0, s1, s2, s3], rfl, rfl, ?_⟩
    simp only [Bool.and_eq_true, decide_eq_true_eq, and_80] at h
    simp [h]

theorem validFrom_iff {fuel : ℕ} (h : s.length ≤ fuel) : validFrom fuel s = true ↔ Utf8.Valid s := by
  induction fuel generalizing s with
  | zero =>
    rw [List.length_eq_zero_iff.mp (Nat.le_zero.mp h)]
    exact iff_of_true rfl Utf8.valid_nil
  | succ fuel ih =>
    rw [validFrom]
    split
    · next hEmpty =>
      rw [List.isEmpty_iff.mp hEmpty]
      exact iff_of_true rfl Utf8.valid_nil
    split
    · next hFour =>
      obtain ⟨a, hs, hLen, ha⟩ := fourAscii_spec hFour
      have hShort : (s.drop 4).length ≤ fuel := by
        rw [hs, List.length_append] at h
        omega
      have hSkip := Utf8.valid_ascii_append (s := s.drop 4) ha
      rw [← hs] at hSkip
      rw [ih hShort, hSkip]
    · obtain ⟨a, hs, ha, hHigh⟩ := skipAscii_spec s
      have hSkip := Utf8.valid_ascii_append (s := skipAscii s) ha
      rw [← hs] at hSkip
      have hLen : (skipAscii s).length ≤ fuel + 1 := by
        have hSum := congrArg List.length hs
        rw [List.length_append] at hSum
        omega
      rw [hSkip]
      dsimp only
      split
      · next hEmpty =>
        rw [List.isEmpty_iff.mp hEmpty]
        exact iff_of_true rfl Utf8.valid_nil
      · next hSome =>
        cases hMulti : multibyte (skipAscii s) with
        | none =>
          refine iff_of_false (by simp) fun hValid => ?_
          obtain ⟨e, t, hEq, he⟩ := Utf8.exists_encoding hValid (by simpa using hSome)
          rw [hEq, multibyte_of_encoding he (hEq ▸ hHigh)] at hMulti
          cases hMulti
        | some n =>
          obtain ⟨e, t, hEq, he, hn⟩ := encoding_of_multibyte hHigh hMulti
          have hPos : 0 < e.length := by cases he <;> simp
          rw [hEq, List.length_append] at hLen
          dsimp only
          rw [hEq, ← hn, List.drop_left, ih (by omega), Utf8.valid_append he]

/-- **`isValidUtf8` accepts exactly the encodings of texts**, whether it takes a character at a time
or four bytes. -/
theorem isValidUtf8_iff (s : List UInt8) : isValidUtf8 s = true ↔ Utf8.Valid s :=
  validFrom_iff le_rfl

end DemoCode.Uws
