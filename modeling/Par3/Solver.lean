import Par3.RegionKernels
import Par3.Foundations.Elimination

/-!
# Solving for the missing blocks

The solver eliminates a square matrix and applies each step to the block rows of the
right-hand side. It is the library's Gauss-Jordan run on rows that carry their block, so
it succeeds exactly for a nonsingular matrix and then returns the only solution.
-/

namespace Par3

variable {n : ℕ}

/-- The pivot is the first nonzero entry at or below the diagonal. -/
def pivotSearch (A : Matrix (Fin n) (Fin n) Gf64) (col : Fin n) : Option (Fin n) :=
  (List.finRange n).find? fun row => decide (col ≤ row) && decide (A row col ≠ 0)

/-- One column of the elimination: swap, scale unless the pivot is one, and clear every row
whose factor is not zero. -/
def eliminate (col pivot : Fin n)
    (system : Matrix (Fin n) (Fin n) Gf64 × (Fin n → Words)) :
    Matrix (Fin n) (Fin n) Gf64 × (Fin n → Words) :=
  let A := fun row => system.1 (Equiv.swap col pivot row)
  let rhs := fun row => system.2 (Equiv.swap col pivot row)
  let pv := A col col
  let pv_inv := pv⁻¹
  let A' : Matrix (Fin n) (Fin n) Gf64 := fun row j =>
    if row = col ∧ pv ≠ 1 then A row j * pv_inv else A row j
  let rhs' : Fin n → Words := fun row w =>
    if row = col ∧ pv ≠ 1 then rhs row w * pv_inv else rhs row w
  (fun row j =>
      if row = col ∨ A' row col = 0 then A' row j else A' row j + A' row col * A' col j,
    fun row w =>
      if row = col ∨ A' row col = 0 then rhs' row w else rhs' row w + rhs' col w * A' row col)

/-- The loop over the columns. A column without a pivot makes the system singular. -/
def solveColumns : List (Fin n) → Matrix (Fin n) (Fin n) Gf64 × (Fin n → Words) →
    Option (Matrix (Fin n) (Fin n) Gf64 × (Fin n → Words))
  | [], system => some system
  | col :: later, system =>
    match pivotSearch system.1 col with
    | none => none
    | some pivot => solveColumns later (eliminate col pivot system)

/-- `SolveAndReconstruct`, and `solve_and_reconstruct` of the JavaScript fallback, which takes
the same steps: the reconstructed rows, or nothing for a singular system. -/
def SolveAndReconstruct (A : Matrix (Fin n) (Fin n) Gf64) (rhsBlocks : Fin n → Words) :
    Option (Fin n → Words) :=
  (solveColumns (List.finRange n) (A, rhsBlocks)).map Prod.snd

/-! ## Refinement of the library's elimination -/

theorem pivotSearch_eq (A : Matrix (Fin n) (Fin n) Gf64) (rhs : Fin n → Words) (col : Fin n) :
    pivotSearch A col =
      Elimination.pivotRow (Elimination.coefficient Words col) (fun row => (A row, rhs row)) col :=
  rfl

/-- Scaling by the inverse changes nothing when the pivot is one, so the guard is no
restriction. -/
theorem scale_guard (pv x : Gf64) : (if pv ≠ 1 then x * pv⁻¹ else x) = x * pv⁻¹ := by
  split
  · rfl
  · rename_i one
    rw [not_not.mp one, inv_one, mul_one]

/-- A zero factor clears nothing, so this guard is no restriction either. -/
theorem clear_guard (factor x y : Gf64) : (if factor = 0 then x else x + factor * y) =
    x - factor * y := by
  split
  · rename_i zero
    rw [zero, zero_mul, sub_zero]
  · exact (CharTwo.sub_eq_add _ _).symm

/-- The guarded in-place steps are the library's column step. -/
theorem eliminate_eq (A : Matrix (Fin n) (Fin n) Gf64) (rhs : Fin n → Words)
    (col pivot row : Fin n) :
    ((eliminate col pivot (A, rhs)).1 row, (eliminate col pivot (A, rhs)).2 row) =
      Elimination.eliminateColumn (Elimination.coefficient Words col)
        (fun row => (A row, rhs row)) col pivot row := by
  rcases eq_or_ne row col with same | other
  · subst same
    refine Prod.ext (funext fun j => ?_) (funext fun w => ?_)
    · simp only [eliminate, Elimination.eliminateColumn, true_and, true_or, if_true, scale_guard]
      exact mul_comm _ _
    · simp only [eliminate, Elimination.eliminateColumn, true_and, true_or, if_true, scale_guard]
      exact mul_comm _ _
  · refine Prod.ext (funext fun j => ?_) (funext fun w => ?_)
    · simp only [eliminate, Elimination.eliminateColumn, other, false_and, false_or, if_false,
        true_and, scale_guard, clear_guard]
      simp [mul_comm]
    · simp only [eliminate, Elimination.eliminateColumn, other, false_and, false_or, if_false,
        true_and, scale_guard, mul_comm _ (A _ _), clear_guard]
      simp [mul_comm]

/-- The loop over the columns refines the library's. -/
theorem solveColumns_eq (cols : List (Fin n)) (A : Matrix (Fin n) (Fin n) Gf64)
    (rhs : Fin n → Words) :
    (solveColumns cols (A, rhs)).map (fun system row => (system.1 row, system.2 row)) =
      Elimination.gaussJordan (Elimination.coefficient Words) cols fun row => (A row, rhs row) := by
  induction cols generalizing A rhs with
  | nil => rfl
  | cons col later ih =>
    rw [solveColumns, Elimination.gaussJordan, ← pivotSearch_eq]
    cases pivotSearch A col with
    | none => rfl
    | some pivot =>
      have step := ih (eliminate col pivot (A, rhs)).1
        (eliminate col pivot (A, rhs)).2
      simp only [eliminate_eq] at step
      exact step

/-- The solver is the library's. -/
theorem SolveAndReconstruct_eq (A : Matrix (Fin n) (Fin n) Gf64) (rhsBlocks : Fin n → Words) :
    SolveAndReconstruct A rhsBlocks = Elimination.solve A rhsBlocks := by
  rw [SolveAndReconstruct, Elimination.solve, ← solveColumns_eq, Option.map_map]
  rfl

/-- The solver succeeds exactly for a nonsingular matrix, with the only solution. -/
theorem SolveAndReconstruct_spec (A : Matrix (Fin n) (Fin n) Gf64) (rhsBlocks : Fin n → Words) :
    match SolveAndReconstruct A rhsBlocks with
    | some solution => A.det ≠ 0 ∧ ∀ x : Fin n → Words,
        (∀ row, ∑ unknown, A row unknown • x unknown = rhsBlocks row) ↔ x = solution
    | none => A.det = 0 := by
  have spec := Elimination.solve_spec A rhsBlocks
  rw [SolveAndReconstruct_eq]
  cases solved : Elimination.solve A rhsBlocks with
  | none =>
    rw [solved] at spec
    exact spec
  | some solution =>
    rw [solved] at spec
    exact spec

/-- Each word of the solution is the only solution of the system of that word. -/
theorem SolveAndReconstruct_word {A : Matrix (Fin n) (Fin n) Gf64} {rhsBlocks : Fin n → Words}
    {solution : Fin n → Words} (solved : SolveAndReconstruct A rhsBlocks = some solution) (w : ℕ)
    (x : Fin n → Gf64) :
    (∀ row, ∑ unknown, A row unknown * x unknown = rhsBlocks row w) ↔
      ∀ unknown, x unknown = solution unknown w := by
  have spec := SolveAndReconstruct_spec A rhsBlocks
  rw [solved] at spec
  obtain ⟨nonsingular, unique⟩ := spec
  have solves (row : Fin n) : ∑ unknown, A row unknown * solution unknown w = rhsBlocks row w := by
    have whole := congrFun ((unique solution).mpr rfl row) w
    rwa [Finset.sum_apply] at whole
  constructor
  · intro equations
    have zero : A.mulVec (fun unknown => x unknown - solution unknown w) = 0 := by
      funext row
      simp only [Matrix.mulVec, dotProduct, mul_sub, Finset.sum_sub_distrib, equations row,
        solves row, sub_self, Pi.zero_apply]
    have same := Matrix.eq_zero_of_mulVec_eq_zero nonsingular zero
    exact fun unknown => sub_eq_zero.mp (congrFun same unknown)
  · intro same row
    simp only [same]
    exact solves row

/-! ## The solvers for one word -/

/-- One column of `gf64_solve`, on rows that carry their right-hand side as a last entry. The
pivot row is scaled and the others cleared from the column on only. -/
def eliminateAugmented (col pivot : Fin n) (aug : Fin n → Fin (n + 1) → Gf64) :
    Fin n → Fin (n + 1) → Gf64 :=
  let swapped := fun row => aug (Equiv.swap col pivot row)
  let pivot_val := swapped col col.castSucc
  let pivot_inv := pivot_val⁻¹
  let scaled : Fin n → Fin (n + 1) → Gf64 := fun row j =>
    if row = col ∧ pivot_val ≠ 1 ∧ col.castSucc ≤ j then swapped row j * pivot_inv
    else swapped row j
  fun row j =>
    if row ≠ col ∧ scaled row col.castSucc ≠ 0 ∧ col.castSucc ≤ j then
      scaled row j + scaled row col.castSucc * scaled col j
    else scaled row j

def solveAugmented : List (Fin n) → (Fin n → Fin (n + 1) → Gf64) →
    Option (Fin n → Fin (n + 1) → Gf64)
  | [], aug => some aug
  | col :: later, aug =>
    match pivotSearch (fun row j => aug row j.castSucc) col with
    | none => none
    | some pivot => solveAugmented later (eliminateAugmented col pivot aug)

/-- `gf64_solve` of the native library. -/
def gf64_solve (A : Matrix (Fin n) (Fin n) Gf64) (b : Fin n → Gf64) : Option (Fin n → Gf64) :=
  (solveAugmented (List.finRange n) fun row => Fin.snoc (A row) (b row)).map
    fun aug row => aug row (Fin.last n)

/-- One column of `gf64_solve` of the JavaScript fallback, which keeps the right-hand side in a
vector of its own. -/
def eliminateVector (col pivot : Fin n) (system : Matrix (Fin n) (Fin n) Gf64 × (Fin n → Gf64)) :
    Matrix (Fin n) (Fin n) Gf64 × (Fin n → Gf64) :=
  let A := fun row => system.1 (Equiv.swap col pivot row)
  let b := fun row => system.2 (Equiv.swap col pivot row)
  let pv := A col col
  let pv_inv := pv⁻¹
  let A' : Matrix (Fin n) (Fin n) Gf64 := fun row j =>
    if row = col ∧ pv ≠ 1 then A row j * pv_inv else A row j
  let b' : Fin n → Gf64 := fun row => if row = col ∧ pv ≠ 1 then b row * pv_inv else b row
  (fun row j => if row = col ∨ A' row col = 0 then A' row j else A' row j + A' row col * A' col j,
    fun row => if row = col ∨ A' row col = 0 then b' row else b' row + A' row col * b' col)

def solveVector : List (Fin n) → Matrix (Fin n) (Fin n) Gf64 × (Fin n → Gf64) →
    Option (Matrix (Fin n) (Fin n) Gf64 × (Fin n → Gf64))
  | [], system => some system
  | col :: later, system =>
    match pivotSearch system.1 col with
    | none => none
    | some pivot => solveVector later (eliminateVector col pivot system)

/-- `gf64_solve` of the JavaScript fallback. -/
def gf64_js_solve (A : Matrix (Fin n) (Fin n) Gf64) (b : Fin n → Gf64) : Option (Fin n → Gf64) :=
  (solveVector (List.finRange n) (A, b)).map Prod.snd

theorem eliminateVector_eq (A : Matrix (Fin n) (Fin n) Gf64) (b : Fin n → Gf64)
    (col pivot row : Fin n) :
    ((eliminateVector col pivot (A, b)).1 row, (eliminateVector col pivot (A, b)).2 row) =
      Elimination.eliminateColumn (Elimination.coefficient Gf64 col)
        (fun row => (A row, b row)) col pivot row := by
  rcases eq_or_ne row col with same | other
  · subst same
    refine Prod.ext (funext fun j => ?_) ?_
    · simp only [eliminateVector, Elimination.eliminateColumn, true_and, true_or, if_true, scale_guard]
      exact mul_comm _ _
    · simp only [eliminateVector, Elimination.eliminateColumn, true_and, true_or, if_true, scale_guard]
      exact mul_comm _ _
  · refine Prod.ext (funext fun j => ?_) ?_
    · simp only [eliminateVector, Elimination.eliminateColumn, other, false_and, false_or, if_false,
        true_and, scale_guard, clear_guard]
      simp [mul_comm]
    · simp only [eliminateVector, Elimination.eliminateColumn, other, false_and, false_or, if_false,
        true_and, scale_guard, clear_guard]
      simp [mul_comm]

theorem solveVector_eq (cols : List (Fin n)) (A : Matrix (Fin n) (Fin n) Gf64) (b : Fin n → Gf64) :
    (solveVector cols (A, b)).map (fun system row => (system.1 row, system.2 row)) =
      Elimination.gaussJordan (Elimination.coefficient Gf64) cols fun row => (A row, b row) := by
  induction cols generalizing A b with
  | nil => rfl
  | cons col later ih =>
    have search : Elimination.pivotRow (Elimination.coefficient Gf64 col)
        (fun row => (A row, b row)) col = pivotSearch A col := rfl
    rw [solveVector, Elimination.gaussJordan, search]
    cases pivotSearch A col with
    | none => rfl
    | some pivot =>
      have step := ih (eliminateVector col pivot (A, b)).1
        (eliminateVector col pivot (A, b)).2
      simp only [eliminateVector_eq] at step
      exact step

/-- An augmented row as the coefficients and the right-hand side. -/
def splitRow (aug : Fin n → Fin (n + 1) → Gf64) (row : Fin n) : (Fin n → Gf64) × Gf64 :=
  (fun j => aug row j.castSucc, aug row (Fin.last n))

/-- Where the pivot row has zeros before the column, working from the column on changes as much
as working on whole rows. -/
theorem eliminateAugmented_apply (aug : Fin n → Fin (n + 1) → Gf64) (col pivot row : Fin n)
    (cleared : ∀ j < col, aug pivot j.castSucc = 0) (j : Fin (n + 1)) :
    eliminateAugmented col pivot aug row j =
      if row = col then (aug pivot col.castSucc)⁻¹ * aug pivot j
      else aug (Equiv.swap col pivot row) j - aug (Equiv.swap col pivot row) col.castSucc *
        ((aug pivot col.castSucc)⁻¹ * aug pivot j) := by
  have before (outside : ¬ col.castSucc ≤ j) : aug pivot j = 0 := by
    have smaller : j.val < col.val := not_le.mp outside
    have entry := cleared ⟨j.val, smaller.trans col.isLt⟩ smaller
    exact entry
  have guarded : (if aug pivot col.castSucc ≠ 1 ∧ col.castSucc ≤ j then
      aug pivot j * (aug pivot col.castSucc)⁻¹ else aug pivot j) =
        (aug pivot col.castSucc)⁻¹ * aug pivot j := by
    by_cases inside : col.castSucc ≤ j
    · simp only [inside, and_true, scale_guard]
      exact mul_comm _ _
    · simp only [inside, and_false, if_false, before inside, mul_zero]
  rcases eq_or_ne row col with same | other
  · subst same
    simp only [eliminateAugmented, true_and, Equiv.swap_apply_left, if_true, ne_eq, not_true,
      false_and, if_false]
    exact guarded
  · simp only [eliminateAugmented, true_and, Equiv.swap_apply_left, other, false_and, if_false,
      ne_eq, not_false_iff]
    rw [← guarded]
    by_cases inside : col.castSucc ≤ j
    · simp only [inside, and_true, ne_eq]
      rw [← clear_guard]
      split <;> simp_all
    · simp only [inside, and_false, if_false, before inside, mul_zero, sub_zero]

/-- The column step of `gf64_solve` is the library's where the columns before are reduced. -/
theorem eliminateAugmented_eq (aug : Fin n → Fin (n + 1) → Gf64) (col pivot : Fin n)
    (reduced : Elimination.Reduced (Elimination.coefficient Gf64) col (splitRow aug))
    (below : col ≤ pivot) :
    splitRow (eliminateAugmented col pivot aug) =
      Elimination.eliminateColumn (Elimination.coefficient Gf64 col) (splitRow aug) col pivot := by
  have cleared (j : Fin n) (before : j < col) : aug pivot j.castSucc = 0 := by
    have entry := reduced j pivot before
    rwa [if_neg (Fin.ne_of_gt (lt_of_lt_of_le before below))] at entry
  funext row
  refine Prod.ext (funext fun j => ?_) ?_
  · change eliminateAugmented col pivot aug row j.castSucc = _
    rw [eliminateAugmented_apply aug col pivot row cleared]
    rcases eq_or_ne row col with same | other
    · simp [same, Elimination.eliminateColumn, splitRow]
    · simp [other, Elimination.eliminateColumn, splitRow]
  · change eliminateAugmented col pivot aug row (Fin.last n) = _
    rw [eliminateAugmented_apply aug col pivot row cleared]
    rcases eq_or_ne row col with same | other
    · simp [same, Elimination.eliminateColumn, splitRow]
    · simp [other, Elimination.eliminateColumn, splitRow]

/-- The loop over the columns refines the library's. The induction is on the columns that
remain, and the reduced columns before them are its invariant. -/
theorem solveAugmented_eq (count bound : ℕ) (covered : bound + count = n)
    (aug : Fin n → Fin (n + 1) → Gf64)
    (reduced : Elimination.Reduced (Elimination.coefficient Gf64) bound (splitRow aug)) :
    (solveAugmented ((List.finRange n).drop bound) aug).map splitRow =
      Elimination.gaussJordan (Elimination.coefficient Gf64) ((List.finRange n).drop bound)
        (splitRow aug) := by
  induction count generalizing bound aug with
  | zero =>
    rw [List.drop_eq_nil_of_le (by simp; omega)]
    rfl
  | succ count ih =>
    have inside : bound < n := by omega
    have next : (List.finRange n).drop bound =
        ⟨bound, inside⟩ :: (List.finRange n).drop (bound + 1) := by
      rw [List.drop_eq_getElem_cons (by simpa using inside)]
      simp
    have search : Elimination.pivotRow (Elimination.coefficient Gf64 ⟨bound, inside⟩)
        (splitRow aug) ⟨bound, inside⟩ =
          pivotSearch (fun row j => aug row j.castSucc) ⟨bound, inside⟩ := rfl
    rw [next, solveAugmented, Elimination.gaussJordan, search]
    cases found : pivotSearch (fun row j => aug row j.castSucc) ⟨bound, inside⟩ with
    | none => rfl
    | some pivot =>
      obtain ⟨below, nonzero⟩ := Elimination.pivotRow_some (search.trans found)
      have step := eliminateAugmented_eq aug ⟨bound, inside⟩ pivot reduced below
      have later := ih (bound + 1) (by omega)
        (eliminateAugmented ⟨bound, inside⟩ pivot aug)
        (step ▸ Elimination.Reduced.step ⟨bound, inside⟩ pivot reduced below nonzero)
      rw [step] at later
      exact later

theorem gf64_solve_eq (A : Matrix (Fin n) (Fin n) Gf64) (b : Fin n → Gf64) :
    gf64_solve A b = Elimination.solve A b := by
  have rows : splitRow (fun row => Fin.snoc (A row) (b row)) = fun row => (A row, b row) := by
    funext row
    simp [splitRow]
  have refined := solveAugmented_eq n 0 (by omega) (fun row => Fin.snoc (A row) (b row)) (by
    intro col row bound
    exact absurd bound (Nat.not_lt_zero _))
  rw [List.drop_zero, rows] at refined
  rw [gf64_solve, Elimination.solve, ← refined, Option.map_map]
  rfl

theorem gf64_js_solve_eq (A : Matrix (Fin n) (Fin n) Gf64) (b : Fin n → Gf64) :
    gf64_js_solve A b = Elimination.solve A b := by
  rw [gf64_js_solve, Elimination.solve, ← solveVector_eq, Option.map_map]
  rfl

end Par3
