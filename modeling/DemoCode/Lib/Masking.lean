import Mathlib.Data.List.Rotate
import Mathlib.Algebra.GroupWithZero.Nat

/-! Masking of bytes by a key of four bytes that is used over and over: each byte is combined with a
byte of the key by exclusive or.  Masking can go on in the middle of the data with a rotated key. -/

namespace Masking

/-- The data under the key. -/
def mask (key data : List UInt8) : List UInt8 := data.mapIdx fun i b => b ^^^ key.getD (i % 4) 0

variable {key a b : List UInt8}

@[simp] theorem mask_nil (key : List UInt8) : mask key [] = [] := rfl

@[simp] theorem length_mask (key data : List UInt8) : (mask key data).length = data.length := by
  simp [mask]

/-- Masking twice is no change. -/
@[simp] theorem mask_mask (key data : List UInt8) : mask key (mask key data) = data := by
  apply List.ext_getElem
  · simp
  · intro i _ _
    simp only [mask, List.getElem_mapIdx, UInt8.xor_assoc, UInt8.xor_self, UInt8.xor_zero]

theorem getD_rotate (h : key.length = 4) (i n : ℕ) :
    (key.rotate n).getD (i % 4) 0 = key.getD ((i + n) % 4) 0 := by
  have hLt : i % 4 < key.length := by omega
  rw [List.getD_eq_getElem?_getD, List.getD_eq_getElem?_getD, List.getElem?_rotate hLt, h,
    Nat.mod_add_mod]

theorem mask_append (h : key.length = 4) (a b : List UInt8) :
    mask key (a ++ b) = mask key a ++ mask (key.rotate a.length) b := by
  simp only [mask, List.mapIdx_append, getD_rotate h]

theorem rotate_mod (h : key.length = 4) (n : ℕ) : key.rotate (n % 4) = key.rotate n := by
  rw [← h, List.rotate_mod]

end Masking
