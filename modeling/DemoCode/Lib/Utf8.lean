import Mathlib.Data.Char
import Mathlib.Algebra.GroupWithZero.Nat

/-! Texts in UTF-8: the bytes that are the encodings of characters, one behind the other. -/

namespace Utf8

open String (utf8EncodeChar)

/-- The bytes are the encoding of some text. -/
def Valid (s : List UInt8) : Prop := ∃ cs : List Char, s = cs.flatMap utf8EncodeChar

variable {s t : List UInt8} {c d : Char}

theorem valid_nil : Valid [] := ⟨[], rfl⟩

/-- The encodings of two characters do not start one another. -/
theorem encode_append_inj (h : utf8EncodeChar c ++ s = utf8EncodeChar d ++ t) : c = d ∧ s = t := by
  have hBytes := congrArg List.toByteArray h
  rw [List.toByteArray_append, List.toByteArray_append] at hBytes
  have hDecode := congrArg (fun b => ByteArray.utf8DecodeChar? b 0) hBytes
  simp only [ByteArray.utf8DecodeChar?_utf8EncodeChar_append, Option.some.injEq] at hDecode
  subst hDecode
  exact ⟨rfl, List.append_cancel_left h⟩

theorem valid_encode_append : Valid (utf8EncodeChar c ++ s) ↔ Valid s := by
  constructor
  · rintro ⟨_ | ⟨d, cs⟩, h⟩
    · have hNil : utf8EncodeChar c = [] := (List.append_eq_nil_iff.mp h).1
      exact absurd hNil String.utf8EncodeChar_ne_nil
    · obtain ⟨-, rfl⟩ := encode_append_inj h
      exact ⟨cs, rfl⟩
  · rintro ⟨cs, rfl⟩
    exact ⟨c :: cs, rfl⟩

theorem exists_encode_of_valid (h : Valid s) (hs : s ≠ []) :
    ∃ c t, s = utf8EncodeChar c ++ t ∧ Valid t := by
  obtain ⟨_ | ⟨c, cs⟩, rfl⟩ := h
  · exact absurd rfl hs
  · exact ⟨c, cs.flatMap utf8EncodeChar, rfl, cs, rfl⟩

/-- A byte that continues a character. -/
def Tail (b : UInt8) : Prop := 0x80 ≤ b.toNat ∧ b.toNat ≤ 0xBF

/-- The encodings of characters by their bytes. -/
inductive Encoding : List UInt8 → Prop where
  | one {a : UInt8} : a.toNat < 0x80 → Encoding [a]
  | two {a b : UInt8} : 0xC2 ≤ a.toNat → a.toNat ≤ 0xDF → Tail b → Encoding [a, b]
  | three {a b d : UInt8} : 0xE0 ≤ a.toNat → a.toNat ≤ 0xEF → (a.toNat = 0xE0 → 0xA0 ≤ b.toNat) →
      (a.toNat = 0xED → b.toNat < 0xA0) → Tail b → Tail d → Encoding [a, b, d]
  | four {a b d e : UInt8} : 0xF0 ≤ a.toNat → a.toNat ≤ 0xF4 → (a.toNat = 0xF0 → 0x90 ≤ b.toNat) →
      (a.toNat = 0xF4 → b.toNat < 0x90) → Tail b → Tail d → Tail e → Encoding [a, b, d, e]

theorem encoding_encode (c : Char) : Encoding (utf8EncodeChar c) := by
  have hValid := c.valid
  simp only [UInt32.isValidChar, Nat.isValidChar] at hValid
  unfold utf8EncodeChar
  generalize hv : c.val.toNat = v at hValid ⊢
  have hByte : ∀ k, k < 256 → (UInt8.ofNat k).toNat = k := fun k hk => UInt8.toNat_ofNat_of_lt' hk
  dsimp only
  split
  · refine .one ?_
    rw [hByte _ (by omega)]
    omega
  split
  · refine .two ?_ ?_ ⟨?_, ?_⟩ <;> rw [hByte _ (by omega)] <;> omega
  split
  · refine .three ?_ ?_ ?_ ?_ ⟨?_, ?_⟩ ⟨?_, ?_⟩ <;> repeat rw [hByte _ (by omega)]
    all_goals omega
  · refine .four ?_ ?_ ?_ ?_ ⟨?_, ?_⟩ ⟨?_, ?_⟩ ⟨?_, ?_⟩ <;> repeat rw [hByte _ (by omega)]
    all_goals omega

theorem exists_char {v : ℕ} (h : Nat.isValidChar v) : ∃ c : Char, c.val.toNat = v := by
  have hLt : v < UInt32.size := by
    rcases h with hv | hv <;> simp only [UInt32.size] <;> omega
  exact ⟨⟨UInt32.ofNatLT v hLt, by simpa [UInt32.isValidChar] using h⟩, by simp⟩

theorem ofNat_eq {v : ℕ} {a : UInt8} (h : v = a.toNat) : UInt8.ofNat v = a := by
  rw [h, UInt8.ofNat_toNat]

theorem exists_encode (h : Encoding s) : ∃ c, utf8EncodeChar c = s := by
  cases h with
  | @one a ha =>
    obtain ⟨c, hc⟩ := exists_char (v := a.toNat) (.inl (by omega))
    refine ⟨c, ?_⟩
    simp only [utf8EncodeChar, hc]
    rw [if_pos (by omega), ofNat_eq rfl]
  | @two a b hLow hHigh hb =>
    obtain ⟨hb, hb'⟩ := hb
    obtain ⟨c, hc⟩ := exists_char (v := (a.toNat - 192) * 64 + (b.toNat - 128)) (.inl (by omega))
    refine ⟨c, ?_⟩
    simp only [utf8EncodeChar, hc]
    rw [if_neg (by omega), if_pos (by omega), ofNat_eq (a := a) (by omega),
      ofNat_eq (a := b) (by omega)]
  | @three a b d hLow hHigh hMin hMax hb hd =>
    obtain ⟨hb, hb'⟩ := hb
    obtain ⟨hd, hd'⟩ := hd
    obtain ⟨c, hc⟩ := exists_char
      (v := (a.toNat - 224) * 4096 + (b.toNat - 128) * 64 + (d.toNat - 128)) (by
        simp only [Nat.isValidChar]; omega)
    refine ⟨c, ?_⟩
    simp only [utf8EncodeChar, hc]
    rw [if_neg (by omega), if_neg (by omega), if_pos (by omega), ofNat_eq (a := a) (by omega),
      ofNat_eq (a := b) (by omega), ofNat_eq (a := d) (by omega)]
  | @four a b d e hLow hHigh hMin hMax hb hd he =>
    obtain ⟨hb, hb'⟩ := hb
    obtain ⟨hd, hd'⟩ := hd
    obtain ⟨he, he'⟩ := he
    obtain ⟨c, hc⟩ := exists_char (v := (a.toNat - 240) * 262144 + (b.toNat - 128) * 4096 +
      (d.toNat - 128) * 64 + (e.toNat - 128)) (.inr (by omega))
    refine ⟨c, ?_⟩
    simp only [utf8EncodeChar, hc]
    rw [if_neg (by omega), if_neg (by omega), if_neg (by omega), ofNat_eq (a := a) (by omega),
      ofNat_eq (a := b) (by omega), ofNat_eq (a := d) (by omega), ofNat_eq (a := e) (by omega)]

/-- An encoding can be taken off the front. -/
theorem valid_append (h : Encoding s) : Valid (s ++ t) ↔ Valid t := by
  obtain ⟨c, rfl⟩ := exists_encode h
  exact valid_encode_append

/-- What is valid starts with an encoding. -/
theorem exists_encoding (h : Valid s) (hs : s ≠ []) : ∃ e t, s = e ++ t ∧ Encoding e := by
  obtain ⟨c, t, rfl, -⟩ := exists_encode_of_valid h hs
  exact ⟨utf8EncodeChar c, t, rfl, encoding_encode c⟩

theorem valid_ascii_cons {b : UInt8} (hb : b.toNat < 0x80) : Valid (b :: s) ↔ Valid s :=
  valid_append (.one hb)

theorem valid_ascii_append {a : List UInt8} (ha : ∀ b ∈ a, b.toNat < 0x80) :
    Valid (a ++ s) ↔ Valid s := by
  induction a with
  | nil => rfl
  | cons b a ih =>
    rw [List.cons_append, valid_ascii_cons (ha b List.mem_cons_self),
      ih fun x hx => ha x (List.mem_cons_of_mem b hx)]

end Utf8
