import Mathlib.LinearAlgebra.Matrix.NonsingularInverse
import Mathlib.LinearAlgebra.Matrix.ToLinearEquiv
import Par3.Foundations.PivotExchange

/-!
# Pivots and leading minors

The columns of the unknowns are exchanged in their order, and so the pivot of a row says whether the
rows up to it determine as many unknowns: when no pivot before it is zero, it is zero if and only if the
leading minor of its size is.
-/
namespace PivotExchange

variable {K : Type*} [Field K] (matrix : ℕ → ℕ → K) (offset : ℕ)

/-- The first rows, in the columns of as many unknowns. -/
def leading (size : ℕ) : Matrix (Fin size) (Fin size) K := .of fun row col => matrix row (offset + col)

variable {matrix offset}

section Vectors

variable {size : ℕ}

theorem leading_mulVec (unknowns : ℕ → K) (row : Fin size) :
    (leading matrix offset size).mulVec (fun col => unknowns col) row =
      ∑ col ∈ Finset.range size, matrix row (offset + col) * unknowns col :=
  Fin.sum_univ_eq_sum_range (fun col => matrix row (offset + col) * unknowns col) size

/-- A minor is zero when some unknowns that are not all zero give zeros. -/
theorem leading_det_eq_zero {unknowns : ℕ → K} {known : ℕ} (inside : known < size)
    (nonzero : unknowns known ≠ 0)
    (zeros : ∀ row < size, ∑ col ∈ Finset.range size, matrix row (offset + col) * unknowns col = 0) :
    (leading matrix offset size).det = 0 := by
  rw [← Matrix.exists_mulVec_eq_zero_iff]
  refine ⟨fun col => unknowns col, ?_, ?_⟩
  · intro all
    exact nonzero (congrFun all ⟨known, inside⟩)
  · funext row
    rw [leading_mulVec]
    exact zeros row row.isLt

/-- A minor is not zero when only zeros give zeros. -/
theorem leading_det_ne_zero (only : ∀ unknowns : ℕ → K,
      (∀ row < size, ∑ col ∈ Finset.range size, matrix row (offset + col) * unknowns col = 0) →
        ∀ col < size, unknowns col = 0) :
    (leading matrix offset size).det ≠ 0 := by
  intro zero
  obtain ⟨vector, nonzero, zeros⟩ := Matrix.exists_mulVec_eq_zero_iff.mpr zero
  apply nonzero
  have extended : (fun col : Fin size => if inside : (col : ℕ) < size then vector ⟨col, inside⟩ else 0) =
      vector := by
    funext col
    rw [dif_pos col.isLt]
  funext col
  have none := only (fun col => if inside : col < size then vector ⟨col, inside⟩ else 0) (by
    intro row inside
    have value := congrFun zeros ⟨row, inside⟩
    rw [← extended, leading_mulVec (fun col => if inside : col < size then vector ⟨col, inside⟩ else 0)]
      at value
    exact value) col col.isLt
  rw [dif_pos col.isLt] at none
  exact none

/-- When a minor is not zero, unknowns give any values. -/
theorem leading_solves (regular : (leading matrix offset size).det ≠ 0) (values : ℕ → K) :
    ∃ unknowns : ℕ → K, ∀ row < size,
      ∑ col ∈ Finset.range size, matrix row (offset + col) * unknowns col = values row := by
  set vector := (leading matrix offset size)⁻¹.mulVec (fun row : Fin size => values row) with solution
  refine ⟨fun col => if inside : col < size then vector ⟨col, inside⟩ else 0, ?_⟩
  intro row inside
  have extended : (fun col : Fin size => if inside : (col : ℕ) < size then vector ⟨col, inside⟩ else 0) =
      vector := by
    funext col
    rw [dif_pos col.isLt]
  have product : (leading matrix offset size).mulVec vector = fun row : Fin size => values row := by
    rw [solution, Matrix.mulVec_mulVec, Matrix.mul_nonsing_inv _ (isUnit_iff_ne_zero.mpr regular),
      Matrix.one_mulVec]
  rw [← leading_mulVec (fun col => if inside : col < size then vector ⟨col, inside⟩ else 0)
    ⟨row, inside⟩, extended, product]

end Vectors

section Pivots

variable [CharP K 2]

/-- What the unknowns make of the rows, exchanged as often as there are rows with zeros. -/
theorem rowValue_of_zeros {rows k : ℕ} {unknowns : ℕ → K} (known : k ≤ rows)
    (nonzero : ∀ earlier < k, pivot matrix offset earlier ≠ 0)
    (zeros : ∀ row < k, ∑ col ∈ Finset.range rows, matrix row (offset + col) * unknowns col = 0)
    {row : ℕ} (inside : row < rows) :
    (if row < k then unknowns row
      else ∑ col ∈ Finset.range rows, matrix row (offset + col) * unknowns col) =
        ∑ col ∈ Finset.Ico k rows, exchanged matrix offset k row (offset + col) * unknowns col := by
  -- the other columns are given zeros
  obtain ⟨given, before, behind⟩ : ∃ given : ℕ → K, (∀ col < offset, given col = 0) ∧
      ∀ col, given (offset + col) = unknowns col := by
    refine ⟨fun col => if col < offset then 0 else unknowns (col - offset), ?_, ?_⟩
    · intro col early
      exact if_pos early
    · intro col
      dsimp only
      rw [if_neg (by omega), Nat.add_sub_cancel_left]
  obtain ⟨target, targetEq⟩ : ∃ target : ℕ → K, ∀ row, target row =
      ∑ col ∈ Finset.range rows, matrix row (offset + col) * unknowns col := ⟨_, fun _ => rfl⟩
  have system : ∀ row < rows, target row =
      ∑ col ∈ Finset.range (offset + rows), matrix row col • given col := by
    intro row _
    have none : ∑ col ∈ Finset.range offset, matrix row col • given col = 0 :=
      Finset.sum_eq_zero fun col early => by rw [before col (Finset.mem_range.mp early), smul_zero]
    rw [Finset.sum_range_add, none, zero_add, targetEq]
    refine Finset.sum_congr rfl fun col _ => ?_
    rw [behind, smul_eq_mul]
  have solved := exchanged_solves le_rfl system known nonzero inside
  have early : ∑ col ∈ Finset.range offset, exchanged matrix offset k row col •
      columnValue offset given target k col = 0 := by
    refine Finset.sum_eq_zero fun col below => ?_
    have outside := Finset.mem_range.mp below
    rw [columnValue, if_neg (by omega), before col outside, smul_zero]
  have exchangedCols : ∑ col ∈ Finset.range k, exchanged matrix offset k row (offset + col) •
      columnValue offset given target k (offset + col) = 0 := by
    refine Finset.sum_eq_zero fun col below => ?_
    have first := Finset.mem_range.mp below
    rw [columnValue, if_pos (by omega), Nat.add_sub_cancel_left, targetEq, zeros col first, smul_zero]
  rw [Finset.sum_range_add, early, zero_add, ← Finset.sum_range_add_sum_Ico _ known, exchangedCols,
    zero_add, rowValue, behind, targetEq] at solved
  refine solved.trans (Finset.sum_congr rfl fun col rest => ?_)
  have later := Finset.mem_Ico.mp rest
  rw [columnValue, if_neg (by omega), behind, smul_eq_mul]

/-- As long as no pivot is zero, no leading minor is. -/
theorem leading_det_ne {size : ℕ} (nonzero : ∀ earlier < size, pivot matrix offset earlier ≠ 0) :
    (leading matrix offset size).det ≠ 0 := by
  apply leading_det_ne_zero
  intro unknowns zeros col inside
  have value := rowValue_of_zeros le_rfl nonzero zeros inside
  rw [if_pos inside, Finset.Ico_self, Finset.sum_empty] at value
  exact value

/-- The first pivot that is zero has a leading minor that is zero. -/
theorem leading_det_eq {k : ℕ} (nonzero : ∀ earlier < k, pivot matrix offset earlier ≠ 0)
    (zero : pivot matrix offset k = 0) : (leading matrix offset (k + 1)).det = 0 := by
  obtain ⟨unknowns, solved⟩ := leading_solves (leading_det_ne nonzero)
    fun row => - matrix row (offset + k)
  have sums (row : ℕ) : ∑ col ∈ Finset.range (k + 1),
      matrix row (offset + col) * Function.update unknowns k 1 col =
        ∑ col ∈ Finset.range k, matrix row (offset + col) * unknowns col + matrix row (offset + k) := by
    rw [Finset.sum_range_succ, Function.update_self, mul_one]
    congr 1
    refine Finset.sum_congr rfl fun col below => ?_
    rw [Function.update_of_ne (Finset.mem_range.mp below).ne]
  have zeros : ∀ row < k, ∑ col ∈ Finset.range (k + 1),
      matrix row (offset + col) * Function.update unknowns k 1 col = 0 := by
    intro row early
    rw [sums, solved row early, neg_add_cancel]
  have one : Function.update unknowns k 1 k ≠ 0 := by
    rw [Function.update_self]
    exact one_ne_zero
  refine leading_det_eq_zero (Nat.lt_succ_self k) one ?_
  intro row inside
  obtain early | rfl := Nat.lt_succ_iff_lt_or_eq.mp inside
  · exact zeros row early
  · have value := rowValue_of_zeros (Nat.le_succ row) nonzero zeros (Nat.lt_succ_self row)
    rw [if_neg (lt_irrefl row), Nat.Ico_succ_singleton, Finset.sum_singleton, Function.update_self,
      mul_one] at value
    exact value.trans zero

end Pivots

end PivotExchange
