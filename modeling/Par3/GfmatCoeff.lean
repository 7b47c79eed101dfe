import Par3.Gf16

/-!
# The coefficients of inputs

The base of an input is a power of two that generates the nonzero words. The coefficient of an
input in a recovery slice is its base to the power of the exponent of the slice, which is looked up
from the product of the logarithms.
-/
namespace Par3

open BinaryField Word

/-- The loop that looks for the next logarithm, which takes at most so many rounds. -/
def nextInputLog : ℕ → ℕ → ℕ
  | 0, exp => exp
  | fuel + 1, exp =>
    let exp := exp + 1
    if exp % 3 = 0 ∨ exp % 5 = 0 ∨ exp % 17 = 0 ∨ exp % 257 = 0 then nextInputLog fuel exp else exp

/-- The table of the logarithms, of which the program keeps the difference to twice the number. -/
def gfmat_input_log : ℕ → ℕ
  | 0 => nextInputLog 65535 0
  | inputBlock + 1 => nextInputLog 65535 (gfmat_input_log inputBlock)

/-- The remainder modulo 65535, up to a remainder of 65535 in place of zero. -/
def gfmat_coeff_log (inputLog recoveryBlock : ℕ) : ℕ :=
  let result := inputLog * recoveryBlock
  let result := (result >>> 16) + result % 65536
  (result + (result >>> 16)) % 65536

def gfmat_coeff_from_log (inputLog recoveryBlock : ℕ) : Gf16 :=
  ⟨gf16_exp (gfmat_coeff_log inputLog recoveryBlock)⟩

theorem gfmat_coeff_log_mod {inputLog recoveryBlock : ℕ} (log : inputLog < 2 ^ 16)
    (recovery : recoveryBlock < 2 ^ 16) :
    gfmat_coeff_log inputLog recoveryBlock % 65535 = inputLog * recoveryBlock % 65535 := by
  have product : inputLog * recoveryBlock ≤ 65535 * 65535 :=
    Nat.mul_le_mul (Nat.le_of_lt_succ log) (Nat.le_of_lt_succ recovery)
  simp only [gfmat_coeff_log, Nat.shiftRight_eq_div_pow]
  generalize inputLog * recoveryBlock = result at product ⊢
  have folded : result % 65535 = (result / 2 ^ 16 + result % 65536) % 65535 := by omega
  have bound : result / 2 ^ 16 + result % 65536 < 2 * 65535 := by omega
  rw [folded]
  generalize result / 2 ^ 16 + result % 65536 = sum at bound ⊢
  by_cases small : sum < 2 ^ 16
  · rw [Nat.div_eq_of_lt small, Nat.add_zero]
    exact congrArg (· % 65535) (Nat.mod_eq_of_lt small)
  · have carry : sum / 2 ^ 16 = 1 := by omega
    rw [carry]
    omega

/-- A coefficient is a power of the base of its input. -/
theorem gfmat_coeff_from_log_eq {inputLog recoveryBlock : ℕ} (log : inputLog < 2 ^ 16)
    (recovery : recoveryBlock < 2 ^ 16) :
    gfmat_coeff_from_log inputLog recoveryBlock = (root ^ inputLog) ^ recoveryBlock := by
  have small : gfmat_coeff_log inputLog recoveryBlock < 2 ^ 16 := Nat.mod_lt _ (by norm_num)
  rw [gfmat_coeff_from_log, gf16_exp_eq small, ← pow_mul,
    ← HornerChecksum.pow_mod_period gf16_root_order, gfmat_coeff_log_mod log recovery,
    HornerChecksum.pow_mod_period gf16_root_order]

end Par3
