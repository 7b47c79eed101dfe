import Par3.Barycentric
import Par3.BarycentricWeights

/-!
# Rows that are inverted in a batch

The engine writes down the denominators of a row and inverts them together: with the entry of the
dispatch table, or, in the barycentric way on a machine that has the instruction, eight lanes at a
time. Every batch leaves the entries that the matrix and the rows of the workers are described by.
-/

namespace Par3

open Interleaving

namespace CoeffCacheKey

variable (key : CoeffCacheKey)

/-- The denominators of a row, with one for a denominator that is zero. -/
def denominators (r c : ℕ) : Gf64 :=
  let denom := key.inputPoint c + key.recoveryPoint r
  if denom = 0 then 1 else denom

/-- A row of the matrix: the inverses are written where the row begins. -/
def batchedRow (method : InverseMethod) (r : ℕ) (matrix : Words) : Option Words := do
  let row ← gf64_inverse_batch method (fun c => matrix (r * key.numInputs + c)) (key.denominators r)
    key.numInputs
  some fun index => if r * key.numInputs ≤ index then row (index - r * key.numInputs) else matrix index

variable {key}

theorem denominators_inv (r c : ℕ) : (key.denominators r c)⁻¹ = key.entry r c := by
  rw [denominators, entry, cauchyCoefficient]
  -- where the denominator was zero, one is its own inverse
  split
  case isTrue zero => exact inv_one.trans (if_pos zero).symm
  case isFalse some => exact (if_neg some).symm

/-- A batch never fails, and leaves what the writes of the row's entries leave. Words behind the row
are given back as they were. -/
theorem batchedRow_eq (method : InverseMethod) (r : ℕ) (matrix : Words) :
    key.batchedRow method r matrix = some (perform (key.matrixRow r) matrix) := by
  rw [batchedRow, gf64_inverse_batch_eq]
  refine congrArg some (funext fun index => ?_)
  by_cases inside : index ∈ key.rowRegion r
  · obtain ⟨c, below, rfl⟩ := inside
    rw [matrixRow_entry r below matrix, if_pos (Nat.le_add_right _ _), Nat.add_sub_cancel_left]
    exact (if_pos below).trans (denominators_inv r c)
  · rw [matrixRow_outside r inside matrix, id]
    split
    case isTrue behind =>
      have far : ¬ index - r * key.numInputs < key.numInputs := fun below =>
        inside ⟨_, below, (Nat.add_sub_of_le behind).symm⟩
      refine (if_neg far).trans ?_
      rw [Nat.add_sub_of_le behind]
    case isFalse => rfl

end CoeffCacheKey

namespace RecoveryCall

variable (call : RecoveryCall) (firstInput firstRecovery : BitVec 64) (inverses : InverseKernels)
  (inputs : Words)

/-- The coefficients of a row, in the buffer that the row before was in. -/
def rowCoeffs (denoms coeffs : Words) : Option Words :=
  if inverses.has_vpclmulqdq then some (gf64_invert_ita_batch coeffs denoms call.numInputs)
  else gf64_inverse_batch inverses.method coeffs denoms call.numInputs

/-- `processRow` with its buffers of denominators and coefficients. -/
def batchedProcessRow (r : ℕ) (coeffs : Words) : Option (List (Step Address Gf64)) := do
  let coeffs ← call.rowCoeffs inverses ((call.key firstInput firstRecovery).denominators r) coeffs
  some ((if call.accumulate then [] else [memset (call.rowStartAddress r) call.blockSize64]) ++
    (List.range call.numInputs).flatMap fun c =>
      [muladd (call.rowStartAddress r) (fun w => inputs (c * call.blockSize64 + w)) (coeffs c)
        call.blockSize64])

variable {call firstInput firstRecovery inverses inputs}

theorem rowCoeffs_eq (denoms coeffs : Words) : call.rowCoeffs inverses denoms coeffs =
    some fun c => if c < call.numInputs then (denoms c)⁻¹ else coeffs c := by
  rw [rowCoeffs, gf64_invert_ita_batch_eq, gf64_inverse_batch_eq, ite_self]

/-- Whatever the machine has, a worker makes the row with the entries of the matrix. -/
theorem batchedProcessRow_eq (r : ℕ) (coeffs : Words) :
    call.batchedProcessRow firstInput firstRecovery inverses inputs r coeffs =
      some (call.processRow firstInput firstRecovery inputs r) := by
  rw [batchedProcessRow, rowCoeffs_eq, processRow]
  refine congrArg some (congrArg _ (List.flatMap_congr fun c member => ?_))
  dsimp only
  rw [if_pos (List.mem_range.mp member), CoeffCacheKey.denominators_inv]

end RecoveryCall

end Par3
