import Mathlib.Algebra.GroupWithZero.Nat
import Mathlib.Algebra.Ring.Int.Defs
import Mathlib.Data.List.AList
import Mathlib.Data.List.TakeWhile

/-! The values of the JSON library that `convertservice` reads, the readings themselves (an access
or a conversion that the library refuses by throwing is `none`), and the arithmetic of `int` and
`atoi`.  A parsed number that is no integer is known by what the library reads off it. -/

namespace DemoCode.FeedProxy

/-- `unordered_map`. -/
abbrev Map (κ β : Type*) := AList fun _ : κ => β

/-- A 32-bit result read as an `int`.  A sum of what the network states wraps, as it does on the machine,
where it is only compared or sent on; where a result is an index or a moment, one that overflows is
`none`. -/
def wrap32 (n : Int) : Int := n.bmod (2 ^ 32)

def intMin : Int := -2 ^ 31

def intMax : Int := 2 ^ 31 - 1

theorem wrap32_lt (n : Int) : wrap32 n < 2 ^ 31 :=
  Int.bmod_lt (by decide)

theorem le_wrap32 (n : Int) : -2 ^ 31 ≤ wrap32 n :=
  Int.le_bmod (by decide)

theorem wrap32_of_range {n : Int} (hLow : -2 ^ 31 ≤ n) (hHigh : n < 2 ^ 31) : wrap32 n = n :=
  Int.bmod_eq_of_le (by omega) (by omega)

theorem wrap32_sub (n : Int) : wrap32 (n - 2 ^ 32) = wrap32 n := Int.sub_bmod_right n (2 ^ 32)

/-- A conversion of digits. -/
def digitsToNat (cs : List Char) : Nat := cs.foldl (fun n c => 10 * n + (c.toNat - '0'.toNat)) 0

/-- `atoi`: blanks, a sign, and digits, as a `long` cut to an `int`. -/
def atoi (s : String) : Int :=
  let cs := s.toList.dropWhile fun c => c = ' ' || ('\t'.toNat ≤ c.toNat && c.toNat ≤ '\r'.toNat)
  let magnitude (ds : List Char) : Int := digitsToNat (ds.takeWhile Char.isDigit)
  match cs with
  | '-' :: ds => wrap32 (max (-magnitude ds) (-2 ^ 63))
  | '+' :: ds => wrap32 (min (magnitude ds) (2 ^ 63 - 1))
  | ds => wrap32 (min (magnitude ds) (2 ^ 63 - 1))

/-- A text of digits is read as its number. -/
theorem atoi_digits {ds : List Char} (hDigits : ∀ c ∈ ds, c.isDigit)
    (hSmall : Nat.ofDigitChars 10 ds 0 < 2 ^ 31) :
    atoi (String.ofList ds) = Nat.ofDigitChars 10 ds 0 := by
  have hTake : ds.takeWhile Char.isDigit = ds := List.takeWhile_eq_self_iff.mpr hDigits
  have hNumber : digitsToNat ds = Nat.ofDigitChars 10 ds 0 := rfl
  have hWrap : wrap32 (min ((Nat.ofDigitChars 10 ds 0 : Nat) : Int) (2 ^ 63 - 1)) =
      Nat.ofDigitChars 10 ds 0 := by
    rw [Int.min_eq_left (by omega)]
    exact wrap32_of_range (by omega) (by omega)
  rw [atoi, String.toList_ofList]
  cases ds with
  | nil => rfl
  | cons c cs =>
    have hFirst := hDigits c List.mem_cons_self
    have hNot : ∀ b : Char, b.isDigit = false → c ≠ b := by
      rintro b hb rfl
      rw [hb] at hFirst
      cases hFirst
    have hBlank : (c = ' ' || ('\t'.toNat ≤ c.toNat && c.toNat ≤ '\r'.toNat)) = false := by
      rw [Bool.or_eq_false_iff]
      refine ⟨decide_eq_false (hNot ' ' rfl), ?_⟩
      rw [Char.isDigit, Bool.and_eq_true, decide_eq_true_eq] at hFirst
      have hLow : 48 ≤ c.toNat := hFirst.1
      have hHigh : '\r'.toNat = 13 := rfl
      rw [Bool.and_eq_false_iff, decide_eq_false_iff_not, decide_eq_false_iff_not]
      omega
    rw [List.dropWhile_cons_of_neg (by rw [hBlank]; exact Bool.false_ne_true)]
    split
    · rename_i hMinus
      exact absurd (List.cons.inj hMinus).1 (hNot '-' rfl)
    · rename_i hPlus
      exact absurd (List.cons.inj hPlus).1 (hNot '+' rfl)
    · dsimp only
      rw [hTake, hNumber]
      exact hWrap

/-- A number with a fraction or an exponent: its text, its integer part, and whether it has no
fraction. -/
structure Real where
  text : String
  trunc : Int
  integral : Bool
  deriving DecidableEq, Repr

/-- A number given to a `double`, before its rounding. -/
inductive Num where
  | int (n : Int)
  | real (r : Real)
  deriving DecidableEq, Repr

instance : Zero Num := ⟨.int 0⟩

/-- `Json::Value`. -/
inductive Json where
  | null
  | bool (b : Bool)
  | int (n : Int)
  | real (r : Real)
  | str (s : String)
  | arr (items : List Json)
  | obj (members : List (String × Json))

namespace Json

/-- `json[key]`. -/
def get (json : Json) (key : String) : Option Json :=
  match json with
  | .null => some .null
  | .obj members => some ((members.lookup key).getD .null)
  | _ => none

/-- `json[i]`. -/
def item (json : Json) (i : Nat) : Option Json :=
  match json with
  | .null => some .null
  | .arr items => some (items.getD i .null)
  | _ => none

def isMember (json : Json) (key : String) : Option Bool :=
  match json with
  | .null => some false
  | .obj members => some (members.lookup key).isSome
  | _ => none

def size : Json → Nat
  | .arr items => items.length
  | .obj members => members.length
  | _ => 0

/-- `empty()`, which a scalar is not. -/
def isEmpty : Json → Bool
  | .null => true
  | .arr items => items.isEmpty
  | .obj members => members.isEmpty
  | _ => false

/-- A real number between the bounds of `int`. -/
def inIntRange (r : Real) : Bool :=
  decide (intMin < r.trunc ∨ (r.trunc = intMin ∧ r.integral)) &&
    decide (r.trunc < intMax ∨ (r.trunc = intMax ∧ r.integral))

def isInt : Json → Bool
  | .int n => decide (intMin ≤ n ∧ n ≤ intMax)
  | .real r => inIntRange r && r.integral
  | _ => false

def asInt : Json → Option Int
  | .null => some 0
  | .bool b => some (if b then 1 else 0)
  | .int n => if intMin ≤ n ∧ n ≤ intMax then some n else none
  | .real r => if inIntRange r then some r.trunc else none
  | _ => none

def asString : Json → Option String
  | .null => some ""
  | .bool b => some (if b then "true" else "false")
  | .int n => some (toString n)
  | .real r => some r.text
  | .str s => some s
  | _ => none

def asDouble : Json → Option Num
  | .null => some (.int 0)
  | .bool b => some (.int (if b then 1 else 0))
  | .int n => some (.int n)
  | .real r => some (.real r)
  | _ => none

end Json

end DemoCode.FeedProxy
