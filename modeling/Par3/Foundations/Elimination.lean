import Mathlib.LinearAlgebra.Matrix.ToLinearEquiv
import Mathlib.LinearAlgebra.Matrix.NonsingularInverse
import Mathlib.LinearAlgebra.Span.Basic

/-!
# Gauss-Jordan elimination on rows of a module

The rows are elements of a module with one coordinate functional for each unknown, so a
row may carry a right-hand side of any shape next to its coefficients. Elimination
takes the columns in order, brings the first row with a nonzero coordinate into place,
scales it and clears the coordinate in every other row.

Each step keeps the span of the rows. A completed run leaves unit coordinates, and a
column without a pivot exhibits a linear dependence between the coordinates, so the run
completes exactly when the square coefficient matrix is nonsingular.
-/

namespace Elimination

variable {K M : Type*} [Field K] [DecidableEq K] [AddCommGroup M] [Module K M] {n : ℕ}

/-- The first row from `col` on with a nonzero coordinate. -/
def pivotRow (coord : M →ₗ[K] K) (rows : Fin n → M) (col : Fin n) : Option (Fin n) :=
  (List.finRange n).find? fun row => decide (col ≤ row) && decide (coord (rows row) ≠ 0)

/-- Swap the pivot into place, scale it to a unit coordinate and clear the others. -/
def eliminateColumn (coord : M →ₗ[K] K) (rows : Fin n → M) (col pivot : Fin n) : Fin n → M :=
  let swapped := rows ∘ Equiv.swap col pivot
  let lead := (coord (swapped col))⁻¹ • swapped col
  fun row => if row = col then lead else swapped row - coord (swapped row) • lead

/-- Process a list of columns; `none` reports a column without a pivot. -/
def gaussJordan (coords : Fin n → M →ₗ[K] K) : List (Fin n) → (Fin n → M) → Option (Fin n → M)
  | [], rows => some rows
  | col :: later, rows =>
    match pivotRow (coords col) rows col with
    | none => none
    | some pivot => gaussJordan coords later (eliminateColumn (coords col) rows col pivot)

theorem pivotRow_some {coord : M →ₗ[K] K} {rows : Fin n → M} {col pivot : Fin n}
    (found : pivotRow coord rows col = some pivot) : col ≤ pivot ∧ coord (rows pivot) ≠ 0 := by
  simpa using List.find?_some found

theorem pivotRow_none {coord : M →ₗ[K] K} {rows : Fin n → M} {col : Fin n}
    (missing : pivotRow coord rows col = none) (row : Fin n) (below : col ≤ row) :
    coord (rows row) = 0 := by
  have rejected := List.find?_eq_none.mp missing row (List.mem_finRange row)
  simpa [below] using rejected

section Step

variable {coord : M →ₗ[K] K} {rows : Fin n → M} {col pivot : Fin n}

omit [DecidableEq K] in
/-- The pivot's own coordinate becomes one and all others vanish. -/
theorem eliminateColumn_coord (nonzero : coord (rows pivot) ≠ 0) (row : Fin n) :
    coord (eliminateColumn coord rows col pivot row) = if row = col then 1 else 0 := by
  have lead : coord ((rows ∘ Equiv.swap col pivot) col) ≠ 0 := by simpa using nonzero
  unfold eliminateColumn
  split
  · rw [map_smul, smul_eq_mul, inv_mul_cancel₀ lead]
  · rw [map_sub, map_smul, map_smul, smul_eq_mul, smul_eq_mul, inv_mul_cancel₀ lead, mul_one,
      sub_self]

omit [DecidableEq K] in
/-- A coordinate that already vanishes on the pivot is moved with the rows only. -/
theorem eliminateColumn_other (other : M →ₗ[K] K) (vanishes : other (rows pivot) = 0)
    (row : Fin n) :
    other (eliminateColumn coord rows col pivot row) =
      if row = col then 0 else other (rows (Equiv.swap col pivot row)) := by
  unfold eliminateColumn
  split
  · simp [vanishes]
  · simp [vanishes]

omit [DecidableEq K] in
/-- The pivot row is its scaled old self. -/
theorem eliminateColumn_lead :
    eliminateColumn coord rows col pivot col = (coord (rows pivot))⁻¹ • rows pivot := by
  simp [eliminateColumn]

omit [DecidableEq K] in
/-- Every other row loses a multiple of the pivot row. -/
theorem eliminateColumn_cleared {row : Fin n} (other : row ≠ col) :
    eliminateColumn coord rows col pivot row = rows (Equiv.swap col pivot row) -
      coord (rows (Equiv.swap col pivot row)) • eliminateColumn coord rows col pivot col := by
  simp [eliminateColumn, other]

omit [DecidableEq K] in
theorem eliminateColumn_mem (row : Fin n) :
    eliminateColumn coord rows col pivot row ∈ Submodule.span K (Set.range rows) := by
  have old (index : Fin n) : rows index ∈ Submodule.span K (Set.range rows) :=
    Submodule.subset_span (Set.mem_range_self index)
  have lead : eliminateColumn coord rows col pivot col ∈ Submodule.span K (Set.range rows) := by
    rw [eliminateColumn_lead]
    exact Submodule.smul_mem _ _ (old pivot)
  rcases eq_or_ne row col with same | other
  · exact same ▸ lead
  · rw [eliminateColumn_cleared other]
    exact Submodule.sub_mem _ (old _) (Submodule.smul_mem _ _ lead)

omit [DecidableEq K] in
theorem mem_eliminateColumn (nonzero : coord (rows pivot) ≠ 0) (row : Fin n) :
    rows row ∈ Submodule.span K (Set.range (eliminateColumn coord rows col pivot)) := by
  have new (index : Fin n) : eliminateColumn coord rows col pivot index ∈
      Submodule.span K (Set.range (eliminateColumn coord rows col pivot)) :=
    Submodule.subset_span (Set.mem_range_self index)
  rcases eq_or_ne row pivot with same | other
  · have restored : coord (rows pivot) • eliminateColumn coord rows col pivot col = rows row := by
      rw [eliminateColumn_lead, smul_inv_smul₀ nonzero, same]
    exact restored ▸ Submodule.smul_mem _ _ (new col)
  · have moved : Equiv.swap col pivot row ≠ col := fun equal =>
      other (by rw [← Equiv.swap_apply_self col pivot row, equal, Equiv.swap_apply_left])
    have cleared : eliminateColumn coord rows col pivot (Equiv.swap col pivot row) +
        coord (rows row) • eliminateColumn coord rows col pivot col = rows row := by
      rw [eliminateColumn_cleared moved, Equiv.swap_apply_self, sub_add_cancel]
    exact cleared ▸ Submodule.add_mem _ (new _) (Submodule.smul_mem _ _ (new col))

omit [DecidableEq K] in
/-- Elimination replaces the rows by combinations of them and can be undone. -/
theorem eliminateColumn_span (nonzero : coord (rows pivot) ≠ 0) :
    Submodule.span K (Set.range (eliminateColumn coord rows col pivot)) =
      Submodule.span K (Set.range rows) :=
  le_antisymm (Submodule.span_le.mpr (Set.range_subset_iff.mpr eliminateColumn_mem))
    (Submodule.span_le.mpr (Set.range_subset_iff.mpr (mem_eliminateColumn nonzero)))

end Step

variable {coords : Fin n → M →ₗ[K] K}

/-- The columns below `bound` already have unit coordinates. -/
def Reduced (coords : Fin n → M →ₗ[K] K) (bound : ℕ) (rows : Fin n → M) : Prop :=
  ∀ col row : Fin n, col.val < bound → coords col (rows row) = if row = col then 1 else 0

omit [DecidableEq K] in
/-- One step extends the reduced columns by one. -/
theorem Reduced.step {rows : Fin n → M} (col pivot : Fin n) (reduced : Reduced coords col rows)
    (below : col ≤ pivot) (nonzero : coords col (rows pivot) ≠ 0) :
    Reduced coords (col + 1) (eliminateColumn (coords col) rows col pivot) := by
  intro earlier row bound
  rcases Nat.lt_succ_iff_lt_or_eq.mp bound with smaller | equal
  · have different : pivot ≠ earlier := by
      intro same
      subst same
      exact absurd below (by simpa using smaller)
    have vanishes : coords earlier (rows pivot) = 0 := by
      rw [reduced earlier pivot smaller, if_neg different]
    rw [eliminateColumn_other (coords earlier) vanishes]
    split
    · rename_i same
      subst same
      rw [if_neg]
      intro same
      subst same
      exact absurd smaller (lt_irrefl _)
    · rename_i other
      rw [reduced earlier _ smaller]
      by_cases swapped : row = pivot
      · subst swapped
        have away : col ≠ earlier := by
          intro same
          subst same
          exact absurd smaller (lt_irrefl _)
        rw [Equiv.swap_apply_right, if_neg away, if_neg different]
      · rw [Equiv.swap_apply_of_ne_of_ne other swapped]
  · have same : earlier = col := Fin.ext equal
    subst same
    rw [eliminateColumn_coord nonzero]

omit [DecidableEq K] in
/-- A column without a pivot makes a nontrivial combination of the coordinates vanish on
every row: the column minus its entries in the reduced rows. -/
theorem Reduced.dependent {rows : Fin n → M} (col : Fin n) (reduced : Reduced coords col rows)
    (missing : ∀ row, col ≤ row → coords col (rows row) = 0) :
    ∃ weight : Fin n → K, weight ≠ 0 ∧
      ∀ row, ∑ unknown, weight unknown * coords unknown (rows row) = 0 := by
  refine ⟨fun unknown => if unknown = col then 1 else
    if unknown < col then - coords col (rows unknown) else 0, ?_, ?_⟩
  · intro zero
    have one := congrFun zero col
    simp at one
  · intro row
    have terms : ∀ unknown, (if unknown = col then 1 else
        if unknown < col then - coords col (rows unknown) else 0) * coords unknown (rows row) =
        (if unknown = col then coords col (rows row) else 0) +
          if unknown = row then (if row < col then - coords col (rows row) else 0) else 0 := by
      intro unknown
      by_cases self : unknown = col
      · subst self
        by_cases again : unknown = row
        · subst again
          simp
        · simp [again]
      · by_cases lower : unknown < col
        · rw [reduced unknown row (by simpa using lower)]
          by_cases again : row = unknown
          · subst again
            simp [self, lower]
          · simp [self, lower, again, Ne.symm again]
        · by_cases again : unknown = row
          · subst again
            simp [self, lower]
          · simp [self, lower, again]
    rw [Finset.sum_congr rfl fun unknown _ => terms unknown, Finset.sum_add_distrib]
    by_cases lower : row < col
    · simp [lower]
    · simp [lower, missing row (not_lt.mp lower)]

/-- A run over the columns from `bound` on keeps the span and ends with unit coordinates,
or the coordinates are dependent on the rows. The induction is on the remaining columns,
and the reduced prefix is its invariant. -/
theorem gaussJordan_run (coords : Fin n → M →ₗ[K] K) (count bound : ℕ) (covered : bound + count = n) (rows : Fin n → M)
    (reduced : Reduced coords bound rows) :
    match gaussJordan coords ((List.finRange n).drop bound) rows with
    | some result => Submodule.span K (Set.range result) = Submodule.span K (Set.range rows) ∧
        Reduced coords n result
    | none => ∃ weight : Fin n → K, weight ≠ 0 ∧ ∀ row ∈ Submodule.span K (Set.range rows),
        ∑ unknown, weight unknown * coords unknown row = 0 := by
  induction count generalizing bound rows with
  | zero =>
    have all : bound = n := by omega
    rw [List.drop_eq_nil_of_le (by simp [all])]
    exact ⟨rfl, all ▸ reduced⟩
  | succ count ih =>
    have inside : bound < n := by omega
    have next : (List.finRange n).drop bound =
        ⟨bound, inside⟩ :: (List.finRange n).drop (bound + 1) := by
      rw [List.drop_eq_getElem_cons (by simpa using inside)]
      simp
    rw [next, gaussJordan]
    cases search : pivotRow (coords ⟨bound, inside⟩) rows ⟨bound, inside⟩ with
    | none =>
      obtain ⟨weight, nonzero, vanishes⟩ :=
        Reduced.dependent ⟨bound, inside⟩ reduced (pivotRow_none search)
      refine ⟨weight, nonzero, fun row member => ?_⟩
      induction member using Submodule.span_induction with
      | mem row member =>
        obtain ⟨index, rfl⟩ := member
        exact vanishes index
      | zero => simp
      | add left right _ _ leftZero rightZero =>
        simp only [map_add, mul_add, Finset.sum_add_distrib, leftZero, rightZero, add_zero]
      | smul factor row _ rowZero =>
        have scaled : ∀ unknown, weight unknown * coords unknown (factor • row) =
            factor * (weight unknown * coords unknown row) := by
          intro unknown
          rw [map_smul, smul_eq_mul]
          ring
        rw [Finset.sum_congr rfl fun unknown _ => scaled unknown, ← Finset.mul_sum, rowZero,
          mul_zero]
    | some pivot =>
      obtain ⟨below, nonzero⟩ := pivotRow_some search
      have step := ih (bound + 1) (by omega)
        (eliminateColumn (coords ⟨bound, inside⟩) rows ⟨bound, inside⟩ pivot)
        (Reduced.step ⟨bound, inside⟩ pivot reduced below nonzero)
      rw [eliminateColumn_span nonzero] at step
      exact step

/-! ## Linear systems -/

section System

variable {V : Type*} [AddCommGroup V] [Module K V]

/-- The coefficient of one unknown in an augmented row. -/
def coefficient (V : Type*) [AddCommGroup V] [Module K V] (unknown : Fin n) :
    (Fin n → K) × V →ₗ[K] K :=
  (LinearMap.proj unknown).comp (LinearMap.fst K (Fin n → K) V)

omit [DecidableEq K] in
@[simp] theorem coefficient_apply (unknown : Fin n) (row : (Fin n → K) × V) :
    coefficient V unknown row = row.1 unknown := rfl

/-- How far a row is from being satisfied by a candidate solution. -/
def residual (candidate : Fin n → V) : (Fin n → K) × V →ₗ[K] V :=
  (∑ unknown, (coefficient V unknown).smulRight (candidate unknown)) -
    LinearMap.snd K (Fin n → K) V

omit [DecidableEq K] in
theorem residual_apply (candidate : Fin n → V) (row : (Fin n → K) × V) :
    residual candidate row = ∑ unknown, row.1 unknown • candidate unknown - row.2 := by
  simp [residual, LinearMap.sum_apply]

/-- Solve a square system by elimination on its augmented rows. -/
def solve (A : Matrix (Fin n) (Fin n) K) (rhs : Fin n → V) : Option (Fin n → V) :=
  (gaussJordan (coefficient V) (List.finRange n) fun row => (A row, rhs row)).map
    fun rows row => (rows row).2

omit [DecidableEq K] in
/-- A functional that vanishes on the rows vanishes on every row of equal span. -/
theorem vanishes_of_span {N : Type*} [AddCommGroup N] [Module K N] (f : M →ₗ[K] N)
    {left right : Fin n → M}
    (span : Submodule.span K (Set.range left) = Submodule.span K (Set.range right))
    (vanishes : ∀ row, f (right row) = 0) (row : Fin n) : f (left row) = 0 := by
  have kernel : Submodule.span K (Set.range right) ≤ LinearMap.ker f := by
    rw [Submodule.span_le]
    rintro _ ⟨index, rfl⟩
    exact vanishes index
  exact kernel (span ▸ Submodule.subset_span (Set.mem_range_self row))

/-- Elimination solves a system exactly when its matrix is nonsingular, and then it
returns the only solution. -/
theorem solve_spec (A : Matrix (Fin n) (Fin n) K) (rhs : Fin n → V) :
    match solve A rhs with
    | some solution => A.det ≠ 0 ∧
        ∀ x : Fin n → V, (∀ row, ∑ unknown, A row unknown • x unknown = rhs row) ↔ x = solution
    | none => A.det = 0 := by
  have run := gaussJordan_run (coefficient V) n 0 (by omega)
    (fun row => (A row, rhs row)) (by
      intro col row bound
      exact absurd bound (Nat.not_lt_zero _))
  rw [List.drop_zero] at run
  unfold solve
  cases finished : gaussJordan (coefficient V) (List.finRange n) fun row => (A row, rhs row) with
  | none =>
    rw [finished] at run
    obtain ⟨weight, nonzero, dependent⟩ := run
    refine Matrix.exists_mulVec_eq_zero_iff.mp ⟨weight, nonzero, ?_⟩
    ext row
    have vanishes := dependent (A row, rhs row) (Submodule.subset_span (Set.mem_range_self row))
    simpa [Matrix.mulVec, dotProduct, mul_comm] using vanishes
  | some result =>
    rw [finished] at run
    obtain ⟨span, reduced⟩ := run
    have unit : ∀ row unknown, (result row).1 unknown = if row = unknown then 1 else 0 :=
      fun row unknown => reduced unknown row unknown.isLt
    have solved : ∀ (x : Fin n → V) (row : Fin n),
        residual (K := K) x (result row) = x row - (result row).2 := by
      intro x row
      rw [residual_apply, Finset.sum_eq_single row]
      · rw [unit, if_pos rfl, one_smul]
      · intro unknown _ other
        rw [unit, if_neg (Ne.symm other), zero_smul]
      · simp
    refine ⟨?_, fun x => ⟨?_, ?_⟩⟩
    · intro singular
      obtain ⟨weight, nonzero, zero⟩ := Matrix.exists_mulVec_eq_zero_iff.mpr singular
      -- A vector in the kernel would give a functional that kills every reduced row.
      have killed := vanishes_of_span (∑ unknown, weight unknown • coefficient (K := K) V unknown)
        span (fun row => by
          have entry := congrFun zero row
          simpa [Matrix.mulVec, dotProduct, mul_comm, LinearMap.sum_apply] using entry)
      refine nonzero (funext fun unknown => ?_)
      have entry := killed unknown
      simpa [LinearMap.sum_apply, unit] using entry
    · intro satisfied
      funext row
      have vanishes := vanishes_of_span (residual (K := K) x) span (fun row => by
        rw [residual_apply, satisfied row, sub_self]) row
      rw [solved] at vanishes
      exact sub_eq_zero.mp vanishes
    · intro equal row
      have vanishes := vanishes_of_span (residual (K := K) x) span.symm (fun row => by
        rw [solved, equal, sub_self]) row
      rw [residual_apply] at vanishes
      exact sub_eq_zero.mp vanishes

end System

end Elimination
