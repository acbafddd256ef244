import Mathlib.Algebra.Group.Int.Defs
import Mathlib.Algebra.Group.Nat.Defs

/-! The size of a container in an `int`. -/

namespace DemoCode.ClassicProblem

/-- A `size_t` given to an `int`. -/
def toInt (n : Nat) : Int := (n : Int).bmod (2 ^ 32)

theorem toInt_eq (n : Nat) :
    toInt n = if n % 2 ^ 32 < 2 ^ 31 then ((n % 2 ^ 32 : Nat) : Int) else (n % 2 ^ 32 : Nat) - 2 ^ 32 := by
  have hDef := Int.bmod_def n (2 ^ 32)
  unfold toInt
  omega

end DemoCode.ClassicProblem
