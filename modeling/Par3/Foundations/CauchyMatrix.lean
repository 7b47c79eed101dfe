import Mathlib.LinearAlgebra.Matrix.ToLinearEquiv
import Mathlib.Algebra.Polynomial.Roots

/-!
# Square Cauchy matrices are nonsingular

The entry of a Cauchy matrix is the inverse of the difference of a row point and a column
point. A vector in its kernel is the list of coefficients of a polynomial in the
column products, of degree below the number of rows, that vanishes at every row point.
-/

open Polynomial

namespace CauchyMatrix

variable {K : Type*} [Field K] {n : ℕ}

/-- The matrix of inverse differences. -/
def cauchy (rowPoint columnPoint : Fin n → K) : Matrix (Fin n) (Fin n) K :=
  fun row column => (rowPoint row - columnPoint column)⁻¹

/-- The combination of the column products that omit one column point each. -/
noncomputable def numerator (columnPoint weight : Fin n → K) : K[X] :=
  ∑ column, C (weight column) * ∏ other ∈ Finset.univ.erase column, (X - C (columnPoint other))

theorem numerator_degree_lt (columnPoint weight : Fin n → K) (pos : 0 < n) :
    (numerator columnPoint weight).natDegree < n := by
  refine lt_of_le_of_lt (natDegree_sum_le_of_forall_le _ _ fun column _ => ?_)
    (Nat.sub_lt pos one_pos)
  refine (natDegree_C_mul_le _ _).trans ?_
  rw [natDegree_prod_of_monic _ _ fun other _ => monic_X_sub_C _]
  simp

/-- At a point that is not a column point the numerator is the row sum times the product
of all differences. -/
theorem numerator_eval (columnPoint weight : Fin n → K) (point : K)
    (away : ∀ column, point ≠ columnPoint column) :
    (numerator columnPoint weight).eval point =
      (∑ column, (point - columnPoint column)⁻¹ * weight column) *
        ∏ column, (point - columnPoint column) := by
  rw [numerator, eval_finsetSum, Finset.sum_mul]
  refine Finset.sum_congr rfl fun column _ => ?_
  rw [eval_mul, eval_C, eval_prod, ← Finset.mul_prod_erase _ _ (Finset.mem_univ column)]
  have nonzero : point - columnPoint column ≠ 0 := sub_ne_zero.mpr (away column)
  simp only [eval_sub, eval_X, eval_C]
  field_simp

/-- At a column point only the term that omits it survives. -/
theorem numerator_eval_column (columnPoint weight : Fin n → K) (column : Fin n) :
    (numerator columnPoint weight).eval (columnPoint column) =
      weight column * ∏ other ∈ Finset.univ.erase column,
        (columnPoint column - columnPoint other) := by
  rw [numerator, eval_finsetSum, Finset.sum_eq_single column]
  · simp [eval_prod]
  · intro other _ different
    rw [eval_mul, eval_prod,
      Finset.prod_eq_zero (Finset.mem_erase.mpr ⟨Ne.symm different, Finset.mem_univ _⟩)]
    · simp
    · simp
  · simp

/-- Distinct row points, distinct column points and no common point suffice. -/
theorem cauchy_det_ne_zero (rowPoint columnPoint : Fin n → K)
    (rows : Function.Injective rowPoint) (columns : Function.Injective columnPoint)
    (disjoint : ∀ row column, rowPoint row ≠ columnPoint column) :
    (cauchy rowPoint columnPoint).det ≠ 0 := by
  intro singular
  obtain ⟨weight, nonzero, kernel⟩ := Matrix.exists_mulVec_eq_zero_iff.mpr singular
  have pos : 0 < n := by
    rcases Nat.eq_zero_or_pos n with empty | pos
    · subst empty
      exact absurd (Subsingleton.elim weight 0) nonzero
    · exact pos
  have zero : numerator columnPoint weight = 0 := by
    refine eq_zero_of_natDegree_lt_card_of_eval_eq_zero _ rows (fun row => ?_) ?_
    · have entry := congrFun kernel row
      rw [numerator_eval _ _ _ (disjoint row)]
      have sum : ∑ column, (rowPoint row - columnPoint column)⁻¹ * weight column = 0 := entry
      rw [sum, zero_mul]
    · rw [Fintype.card_fin]
      exact numerator_degree_lt columnPoint weight pos
  refine nonzero (funext fun column => ?_)
  have value := numerator_eval_column columnPoint weight column
  rw [zero, eval_zero] at value
  refine (mul_eq_zero.mp value.symm).resolve_right (Finset.prod_ne_zero_iff.mpr fun other member => ?_)
  exact sub_ne_zero.mpr (columns.ne (Finset.ne_of_mem_erase member).symm)

end CauchyMatrix
