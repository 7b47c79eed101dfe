import Mathlib.Algebra.Order.Floor.Semifield
import Mathlib.Algebra.Order.Round
import Mathlib.Data.Int.Log
import Mathlib.Data.Rat.Floor
import Mathlib.Tactic.Linarith
import Mathlib.Tactic.NormNum

/-!
# Rounding to a double

A rational number is rounded to 53 significant bits, to nearest with ties to even. The range of the
exponent is not bounded, so this is the arithmetic of doubles as long as nothing overflows or becomes
subnormal.
-/

namespace Doubles

/-- The nearest integer, the even one of two. -/
def roundEven (value : ℚ) : ℤ :=
  let rest := value - ⌊value⌋
  if rest < 1 / 2 ∨ (rest = 1 / 2 ∧ 2 ∣ ⌊value⌋) then ⌊value⌋ else ⌊value⌋ + 1

/-- The weight of the last of the significant bits. -/
def unit (value : ℚ) : ℚ := 2 ^ (Int.log 2 |value| - 52)

/-- The nearest double. -/
def nearest (value : ℚ) : ℚ := roundEven (value / unit value) * unit value

/-! ## A share of a whole -/

/-- A quotient of doubles. -/
def ratio (whole parts : ℕ) : ℚ := nearest (whole / parts)

/-- How much of a whole so many of its parts are. -/
def share (whole parts part : ℕ) : ℤ := round (nearest (ratio whole parts * part))

end Doubles
