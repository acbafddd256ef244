import Mathlib.Algebra.GroupWithZero.Nat
import Mathlib.Data.List.Basic

/-! Unsigned integers as fixed-width byte strings, least or most significant byte first. -/

namespace Endian

/-- The `width` low bytes of `n`, least significant first. -/
def little : Nat → Nat → List UInt8
  | 0, _ => []
  | width + 1, n => UInt8.ofNat (n % 256) :: little width (n / 256)

/-- The value of bytes that stand least significant first. -/
def ofLittle : List UInt8 → Nat
  | [] => 0
  | b :: bs => b.toNat + 256 * ofLittle bs

/-- The `width` low bytes of `n`, most significant first. -/
def big (width n : Nat) : List UInt8 := (little width n).reverse

/-- The value of bytes that stand most significant first. -/
def ofBig (bs : List UInt8) : Nat := ofLittle bs.reverse

@[simp] theorem length_little (width n : Nat) : (little width n).length = width := by
  induction width generalizing n with
  | zero => rfl
  | succ width ih => simp [little, ih]

@[simp] theorem length_big (width n : Nat) : (big width n).length = width := by simp [big]

theorem getElem?_little {width i : Nat} (h : i < width) (n : Nat) :
    (little width n)[i]? = some (UInt8.ofNat (n / 256 ^ i % 256)) := by
  induction width generalizing i n with
  | zero => exact absurd h (Nat.not_lt_zero i)
  | succ width ih =>
    cases i with
    | zero => rw [little, List.getElem?_cons_zero, Nat.pow_zero, Nat.div_one]
    | succ i =>
      rw [little, List.getElem?_cons_succ, ih (Nat.lt_of_succ_lt_succ h), Nat.div_div_eq_div_mul,
        Nat.pow_succ']

theorem ofLittle_lt (bs : List UInt8) : ofLittle bs < 256 ^ bs.length := by
  induction bs with
  | nil => simp [ofLittle]
  | cons b bs ih =>
    have hb : b.toNat < 256 := b.toNat_lt
    simp only [ofLittle, List.length_cons, Nat.pow_succ]
    omega

theorem ofBig_lt (bs : List UInt8) : ofBig bs < 256 ^ bs.length := by
  simpa [ofBig] using ofLittle_lt bs.reverse

theorem ofLittle_little {width n : Nat} (h : n < 256 ^ width) :
    ofLittle (little width n) = n := by
  induction width generalizing n with
  | zero => simp at h; simp [h, little, ofLittle]
  | succ width ih =>
    rw [Nat.pow_succ] at h
    have hb : (UInt8.ofNat (n % 256)).toNat = n % 256 := UInt8.toNat_ofNat_of_lt' (Nat.mod_lt n (by decide))
    rw [little, ofLittle, ih (by omega), hb]
    omega

theorem ofBig_big {width n : Nat} (h : n < 256 ^ width) : ofBig (big width n) = n := by
  rw [ofBig, big, List.reverse_reverse, ofLittle_little h]

theorem little_ofLittle (bs : List UInt8) : little bs.length (ofLittle bs) = bs := by
  induction bs with
  | nil => rfl
  | cons b bs ih =>
    have hb : b.toNat < 256 := b.toNat_lt
    rw [ofLittle, List.length_cons, little, show (b.toNat + 256 * ofLittle bs) % 256 = b.toNat by omega,
      show (b.toNat + 256 * ofLittle bs) / 256 = ofLittle bs by omega, ih, UInt8.ofNat_toNat]

theorem big_ofBig (bs : List UInt8) : big bs.length (ofBig bs) = bs := by
  have h := little_ofLittle bs.reverse
  rw [List.length_reverse] at h
  rw [big, ofBig, h, List.reverse_reverse]

end Endian
