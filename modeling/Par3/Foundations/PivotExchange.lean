import Mathlib.Algebra.BigOperators.Ring.Finset
import Mathlib.Algebra.CharP.Two
import Mathlib.Algebra.Field.Basic
import Mathlib.Algebra.Module.BigOperators
import Mathlib.Tactic.Abel
import Mathlib.Tactic.Ring

/-!
# Exchanging the columns of a system

The rows of a system over a field of characteristic two give results from unknowns and from other
values. In each step the unknown of a column changes places with the result of its row, and the
column is used for the result from then on. The first matrix alone determines the matrix after a
number of exchanges, however its rows are grouped on the way: a row may take part in several
exchanges at once when the rows that it is exchanged with are through with all of them.
-/
namespace PivotExchange

variable {K : Type*} [Field K] (matrix : ℕ → ℕ → K) (offset : ℕ)

/-- The matrix after a number of exchanges. The unknown with the number `k` has the column
`offset + k`. -/
def exchanged : ℕ → ℕ → ℕ → K
  | 0, row, col => matrix row col
  | k + 1, row, col =>
    let scaled := (if col = offset + k then 1 else exchanged k k col) *
      (exchanged k k (offset + k))⁻¹
    if row = k then scaled
    else (if col = offset + k then 0 else exchanged k row col) +
      exchanged k row (offset + k) * scaled

/-- What the row of an unknown is divided by. -/
def pivot (k : ℕ) : K := exchanged matrix offset k k (offset + k)

variable {matrix offset}

/-- The row of the unknown is divided by its pivot. -/
theorem exchanged_own (k col : ℕ) : exchanged matrix offset (k + 1) k col =
    (if col = offset + k then 1 else exchanged matrix offset k k col) *
      (pivot matrix offset k)⁻¹ := by
  rw [exchanged, if_pos rfl, pivot]

/-- It is then added to every other row. -/
theorem exchanged_other {row k : ℕ} (other : row ≠ k) (col : ℕ) :
    exchanged matrix offset (k + 1) row col =
      (if col = offset + k then 0 else exchanged matrix offset k row col) +
        exchanged matrix offset k row (offset + k) * exchanged matrix offset (k + 1) k col := by
  rw [exchanged_own, exchanged, if_neg other, pivot]

/-- A row takes part in several exchanges at once. -/
theorem exchanged_block {row k : ℕ} (count : ℕ) (outside : row < k ∨ k + count ≤ row) (col : ℕ) :
    exchanged matrix offset (k + count) row col =
      (if offset + k ≤ col ∧ col < offset + k + count then 0
        else exchanged matrix offset k row col) +
        ∑ index ∈ Finset.range count, exchanged matrix offset k row (offset + k + index) *
          exchanged matrix offset (k + count) (k + index) col := by
  induction count generalizing col with
  | zero =>
    rw [Finset.sum_range_zero, if_neg (by omega), add_zero, add_zero]
  | succ count ih =>
    have before := ih (by omega)
    have own (col : ℕ) : exchanged matrix offset (k + (count + 1)) (k + count) col =
        exchanged matrix offset (k + count + 1) (k + count) col := rfl
    have sources : ∀ index ∈ Finset.range count,
        exchanged matrix offset k row (offset + k + index) *
            exchanged matrix offset (k + (count + 1)) (k + index) col =
          (if col = offset + (k + count) then 0
            else exchanged matrix offset k row (offset + k + index) *
              exchanged matrix offset (k + count) (k + index) col) +
          exchanged matrix offset k row (offset + k + index) *
              exchanged matrix offset (k + count) (k + index) (offset + (k + count)) *
            exchanged matrix offset (k + count + 1) (k + count) col := by
      intro index inside
      have below := Finset.mem_range.mp inside
      rw [← Nat.add_assoc k count 1, exchanged_other (by omega), mul_add, mul_ite, mul_zero,
        mul_assoc]
    rw [Finset.sum_range_succ, Finset.sum_congr rfl sources, Finset.sum_add_distrib,
      ← Finset.sum_mul, ← Nat.add_assoc k count 1, exchanged_other (by omega)]
    have last := before (offset + (k + count))
    rw [if_neg (by omega)] at last
    rw [last]
    by_cases here : col = offset + (k + count)
    · rw [if_pos here, if_pos (by omega)]
      simp only [if_pos here, Finset.sum_const_zero]
      rw [← Nat.add_assoc offset k count]
      ring
    · rw [if_neg here, before col]
      simp only [if_neg here]
      have same : (offset + k ≤ col ∧ col < offset + k + (count + 1)) ↔
          (offset + k ≤ col ∧ col < offset + k + count) := by omega
      rw [if_congr same rfl rfl, ← Nat.add_assoc offset k count]
      ring

/-! ## What the rows say -/

section Values

variable {M : Type*} [AddCommGroup M] [Module K M] (given target : ℕ → M)

variable (offset) in
/-- What a column stands for. -/
def columnValue (k col : ℕ) : M :=
  if offset ≤ col ∧ col < offset + k then target (col - offset) else given col

variable (offset) in
/-- What a row gives. -/
def rowValue (k row : ℕ) : M := if row < k then given (offset + row) else target row

variable {given target}

omit [AddCommGroup M] in
theorem columnValue_succ (k col : ℕ) : columnValue offset given target (k + 1) col =
    if col = offset + k then target k else columnValue offset given target k col := by
  simp only [columnValue]
  by_cases here : col = offset + k
  · rw [if_pos (by omega), if_pos here, here, Nat.add_sub_cancel_left]
  · rw [if_neg here]
    exact if_congr (by omega) rfl rfl

/-- After every exchange the rows are right, as long as no pivot is zero. -/
theorem exchanged_solves [CharP K 2] {width rows : ℕ} (fits : offset + rows ≤ width)
    (system : ∀ row < rows, target row = ∑ col ∈ Finset.range width, matrix row col • given col)
    {k : ℕ} (known : k ≤ rows) (nonzero : ∀ earlier < k, pivot matrix offset earlier ≠ 0)
    {row : ℕ} (inside : row < rows) :
    rowValue offset given target k row = ∑ col ∈ Finset.range width,
      exchanged matrix offset k row col • columnValue offset given target k col := by
  induction k generalizing row with
  | zero =>
    rw [rowValue, if_neg (Nat.not_lt_zero _), system row inside]
    apply Finset.sum_congr rfl
    intro col _
    rw [columnValue, if_neg (by omega)]
    rfl
  | succ k ih =>
    have before := fun {row : ℕ} => @ih (by omega)
      (fun earlier below => nonzero earlier (by omega)) row
    have member : offset + k ∈ Finset.range width := Finset.mem_range.mpr (by omega)
    have double (value : M) : value + value = 0 := by
      rw [← two_smul K value, CharTwo.two_eq_zero, zero_smul]
    -- the column of the unknown apart from the others
    have apart {row : ℕ} (inside : row < rows) : rowValue offset given target k row =
        exchanged matrix offset k row (offset + k) • given (offset + k) +
          ∑ col ∈ (Finset.range width).erase (offset + k),
            exchanged matrix offset k row col • columnValue offset given target k col := by
      rw [before inside, ← Finset.add_sum_erase _ _ member]
      rw [columnValue, if_neg (by omega)]
    have others (coefficients : ℕ → K) :
        ∑ col ∈ Finset.range width, coefficients col • columnValue offset given target (k + 1) col =
          coefficients (offset + k) • target k + ∑ col ∈ (Finset.range width).erase (offset + k),
            coefficients col • columnValue offset given target k col := by
      rw [← Finset.add_sum_erase _ _ member, columnValue_succ, if_pos rfl]
      congr 1
      apply Finset.sum_congr rfl
      intro col elsewhere
      rw [columnValue_succ, if_neg (Finset.ne_of_mem_erase elsewhere)]
    have solved : given (offset + k) = ∑ col ∈ Finset.range width,
        exchanged matrix offset (k + 1) k col • columnValue offset given target (k + 1) col := by
      have row := apart (show k < rows by omega)
      rw [rowValue, if_neg (lt_irrefl k)] at row
      rw [others, exchanged_own, if_pos rfl, one_mul]
      have rest : ∑ col ∈ (Finset.range width).erase (offset + k),
          exchanged matrix offset (k + 1) k col • columnValue offset given target k col =
            (pivot matrix offset k)⁻¹ • ∑ col ∈ (Finset.range width).erase (offset + k),
              exchanged matrix offset k k col • columnValue offset given target k col := by
        rw [Finset.smul_sum]
        apply Finset.sum_congr rfl
        intro col elsewhere
        rw [exchanged_own, if_neg (Finset.ne_of_mem_erase elsewhere), mul_comm, mul_smul]
      rw [rest, ← smul_add, row, add_assoc, double, add_zero, smul_smul]
      change _ = ((pivot matrix offset k)⁻¹ * pivot matrix offset k) • _
      rw [inv_mul_cancel₀ (nonzero k (Nat.lt_succ_self k)), one_smul]
    by_cases own : row = k
    · rw [own, rowValue, if_pos (Nat.lt_succ_self k)]
      exact solved
    · have same : rowValue offset given target (k + 1) row = rowValue offset given target k row := by
        simp only [rowValue]
        exact if_congr (by omega) rfl rfl
      rw [same, apart inside]
      have other : ∀ col ∈ Finset.range width,
          exchanged matrix offset (k + 1) row col • columnValue offset given target (k + 1) col =
            (if col = offset + k then 0 else exchanged matrix offset k row col) •
                columnValue offset given target (k + 1) col +
              exchanged matrix offset k row (offset + k) •
                exchanged matrix offset (k + 1) k col •
                  columnValue offset given target (k + 1) col := by
        intro col _
        rw [exchanged_other own, add_smul, mul_smul]
      rw [Finset.sum_congr rfl other, Finset.sum_add_distrib, ← Finset.smul_sum, ← solved, others,
        if_pos rfl, zero_smul, zero_add, add_comm]
      congr 1
      apply Finset.sum_congr rfl
      intro col elsewhere
      rw [if_neg (Finset.ne_of_mem_erase elsewhere)]

end Values

end PivotExchange
