import Par3.Solver
import Par3.Words

/-!
# The three solvers on their arrays

The solvers read a matrix row by row from an array and the right-hand side as blocks of words.
The native ones take any width. The JavaScript fallback works on bytes and turns down blocks
that hold no whole word.
-/

namespace Par3

variable {n width : ℕ}

/-- The square matrix that an array holds, `A[i * n + j]`. -/
def squareOf (n : ℕ) (A : ℕ → Gf64) : Matrix (Fin n) (Fin n) Gf64 := fun row j => A (row * n + j)

/-- The blocks that an array holds, `rhs[i * blockSize64 + w]`. -/
def blocksOf (n blockSize64 : ℕ) (rhs : ℕ → Gf64) : Fin n → Words :=
  fun row w => rhs (row * blockSize64 + w)

/-- Rows of one width, one after the other. -/
def rowMajor (width : ℕ) (rows : Fin n → ℕ → Gf64) : ℕ → Gf64 := fun index =>
  if inside : index / width < n then rows ⟨index / width, inside⟩ (index % width) else 0

/-- `SolveAndReconstruct` on the arrays it is called with. It works in place: on success the
first array holds the reduced matrix and the second the blocks that were missing. -/
def solveArrays (n blockSize64 : ℕ) (A rhsBlocks : ℕ → Gf64) :
    Option ((ℕ → Gf64) × (ℕ → Gf64)) :=
  if n = 0 then some (A, rhsBlocks)
  else (solveColumns (List.finRange n) (squareOf n A, blocksOf n blockSize64 rhsBlocks)).map
    fun system => (rowMajor n fun row j => if inside : j < n then system.1 row ⟨j, inside⟩ else 0,
      rowMajor blockSize64 system.2)

/-- `solve_and_reconstruct` of the JavaScript fallback. The blocks' size is in bytes. -/
def solve_and_reconstruct (A_buf rhsBlocks : Buffer) (n blockSize : ℕ) :
    Option (Buffer × Buffer) :=
  if n = 0 then some (A_buf, rhsBlocks)
  else if blockSize < 8 ∨ blockSize % 8 ≠ 0 then none
  else
    let blockSize64 := blockSize / 8
    (solveArrays n blockSize64 (wordAt A_buf) (wordAt rhsBlocks)).map fun arrays =>
      (ofWords (n * n) arrays.1, ofWords (n * blockSize64) arrays.2)

/-- `gf64_solve` of the native library on the arrays it is called with. -/
def gf64_solve_array (n : ℕ) (A b : ℕ → Gf64) : Option (Fin n → Gf64) :=
  gf64_solve (squareOf n A) fun row => b row

/-- `gf64_solve` of the JavaScript fallback on its buffers. -/
def gf64_js_solve_buffer (n : ℕ) (A_buf b_buf : Buffer) : Option Buffer :=
  (gf64_js_solve (squareOf n (wordAt A_buf)) fun row => wordAt b_buf row).map fun x =>
    ofWords n fun row => if inside : row < n then x ⟨row, inside⟩ else 0

/-- The rows of a matrix as an array holds them. -/
def entries (M : Matrix (Fin n) (Fin width) Gf64) : Fin n → ℕ → Gf64 := fun row j =>
  if inside : j < width then M row ⟨j, inside⟩ else 0

/-- One column of a right-hand side as an array. -/
def columnOf (M : Matrix (Fin n) (Fin width) Gf64) (col : Fin width) : ℕ → Gf64 := fun row =>
  if inside : row < n then M ⟨row, inside⟩ col else 0

/-! ## What the arrays hold -/

theorem rowMajor_apply (rows : Fin n → ℕ → Gf64) (row : Fin n) {w : ℕ} (inside : w < width) :
    rowMajor width rows (row * width + w) = rows row w := by
  have quotient : (row.val * width + w) / width = row := by
    rw [Nat.mul_comm, Nat.mul_add_div (by omega), Nat.div_eq_of_lt inside, Nat.add_zero]
  have remainder : (row.val * width + w) % width = w := by
    rw [Nat.mul_comm, Nat.mul_add_mod, Nat.mod_eq_of_lt inside]
  have stored : (row.val * width + w) / width < n := by
    rw [quotient]
    exact row.isLt
  rw [rowMajor, dif_pos stored, remainder]
  exact congrArg (fun index => rows index w) (Fin.ext quotient)

/-- Only the entries below the width of the rows are stored. -/
theorem rowMajor_congr {left right : Fin n → ℕ → Gf64}
    (same : ∀ row, ∀ w < width, left row w = right row w) (index : ℕ) (inside : index < n * width) :
    rowMajor width left index = rowMajor width right index := by
  have pos : 0 < width := by
    by_contra none_stored
    rw [Nat.eq_zero_of_not_pos none_stored, Nat.mul_zero] at inside
    omega
  unfold rowMajor
  split
  · exact same _ _ (Nat.mod_lt _ pos)
  · rfl

theorem entry_inside (row : Fin n) {w : ℕ} (inside : w < width) : row * width + w < n * width := by
  have whole : (row + 1) * width ≤ n * width := Nat.mul_le_mul_right width row.isLt
  rw [Nat.succ_mul] at whole
  omega

@[simp] theorem entries_apply (M : Matrix (Fin n) (Fin width) Gf64) (row : Fin n) (j : Fin width) :
    entries M row j = M row j := by
  rw [entries, dif_pos j.isLt]

@[simp] theorem columnOf_apply (M : Matrix (Fin n) (Fin width) Gf64) (col : Fin width)
    (row : Fin n) : columnOf M col row = M row col := by
  rw [columnOf, dif_pos row.isLt]

/-- A matrix is read back from an array that agrees with it. -/
theorem squareOf_eq (A : Matrix (Fin n) (Fin n) Gf64) {array : ℕ → Gf64}
    (stored : ∀ index < n * n, array index = rowMajor n (entries A) index) :
    squareOf n array = A := by
  ext row j
  rw [squareOf, stored _ (entry_inside row j.isLt), rowMajor_apply _ _ j.isLt, entries_apply]

/-- So are the words of the blocks below their width. -/
theorem blocksOf_eq (B : Matrix (Fin n) (Fin width) Gf64) {array : ℕ → Gf64}
    (stored : ∀ index < n * width, array index = rowMajor width (entries B) index) (row : Fin n)
    (w : Fin width) : blocksOf n width array row w = B row w := by
  rw [blocksOf, stored _ (entry_inside row w.isLt), rowMajor_apply _ _ w.isLt, entries_apply]

/-! ## The solution -/

/-- What `SolveAndReconstruct` leaves in the blocks is the only solution, if there is one. -/
theorem SolveAndReconstruct_matrix (A : Matrix (Fin n) (Fin n) Gf64)
    (B : Matrix (Fin n) (Fin width) Gf64) {rhsBlocks : Fin n → Words}
    (stored : ∀ row (w : Fin width), rhsBlocks row w = B row w) {solution : Fin n → Words}
    (solved : SolveAndReconstruct A rhsBlocks = some solution)
    (X : Matrix (Fin n) (Fin width) Gf64) :
    A * X = B ↔ ∀ row (w : Fin width), X row w = solution row w := by
  have word (w : Fin width) := SolveAndReconstruct_word solved w fun unknown => X unknown w
  constructor
  · intro product row w
    refine (word w).mp (fun equation => ?_) row
    rw [stored, ← product, Matrix.mul_apply]
  · intro same
    ext row w
    rw [Matrix.mul_apply, (word w).mpr (fun unknown => same unknown w) row, stored]

/-- The solvers for one word find the column of the only solution. -/
theorem solve_column (A : Matrix (Fin n) (Fin n) Gf64) (B X : Matrix (Fin n) (Fin width) Gf64)
    (nonsingular : A.det ≠ 0) (product : A * X = B) (col : Fin width) :
    Elimination.solve A (fun row => B row col) = some fun row => X row col := by
  have spec := Elimination.solve_spec A fun row => B row col
  cases solved : Elimination.solve A fun row => B row col with
  | none =>
    rw [solved] at spec
    exact absurd spec nonsingular
  | some solution =>
    rw [solved] at spec
    refine congrArg some ((spec.2 fun row => X row col).mp fun row => ?_).symm
    rw [← product, Matrix.mul_apply]
    rfl

theorem solve_singular (A : Matrix (Fin n) (Fin n) Gf64) {V : Type*} [AddCommGroup V]
    [Module Gf64 V] (rhs : Fin n → V) (singular : A.det = 0) : Elimination.solve A rhs = none := by
  have spec := Elimination.solve_spec A rhs
  cases solved : Elimination.solve A rhs with
  | none => rfl
  | some solution =>
    rw [solved] at spec
    exact absurd singular spec.1

theorem solveArrays_snd (blockSize64 : ℕ) (A rhsBlocks : ℕ → Gf64) (rows : n ≠ 0) :
    (solveArrays n blockSize64 A rhsBlocks).map Prod.snd =
      (SolveAndReconstruct (squareOf n A) (blocksOf n blockSize64 rhsBlocks)).map
        (rowMajor blockSize64) := by
  rw [solveArrays, if_neg rows, SolveAndReconstruct, Option.map_map, Option.map_map]
  rfl

/-- A nonsingular system is solved on the arrays. -/
theorem solveArrays_solution (A : Matrix (Fin n) (Fin n) Gf64)
    (B X : Matrix (Fin n) (Fin width) Gf64) (nonsingular : A.det ≠ 0) (product : A * X = B)
    {left right : ℕ → Gf64} (coefficients : ∀ index < n * n, left index = rowMajor n (entries A) index)
    (blocks : ∀ index < n * width, right index = rowMajor width (entries B) index) :
    ∃ reduced result, solveArrays n width left right = some (reduced, result) ∧
      ∀ index < n * width, result index = rowMajor width (entries X) index := by
  rcases Nat.eq_zero_or_pos n with empty | rows
  · subst empty
    refine ⟨left, right, by simp [solveArrays], ?_⟩
    intro index inside
    omega
  · have whole := solveArrays_snd width left right rows.ne'
    rw [squareOf_eq A coefficients] at whole
    have spec := SolveAndReconstruct_spec A (blocksOf n width right)
    cases solved : SolveAndReconstruct A (blocksOf n width right) with
    | none =>
      rw [solved] at spec
      exact absurd spec nonsingular
    | some solution =>
      rw [solved, Option.map_some] at whole
      obtain ⟨⟨reduced, result⟩, returned, same⟩ := Option.map_eq_some_iff.mp whole
      refine ⟨reduced, result, returned, fun index inside => ?_⟩
      dsimp only at same
      rw [same]
      refine rowMajor_congr (fun row w bound => ?_) index inside
      have word := (SolveAndReconstruct_matrix A B (blocksOf_eq B blocks) solved X).mp product row
        ⟨w, bound⟩
      exact word.symm.trans (entries_apply X row ⟨w, bound⟩).symm

theorem solveArrays_singular (A : Matrix (Fin n) (Fin n) Gf64) (singular : A.det = 0)
    {left right : ℕ → Gf64}
    (coefficients : ∀ index < n * n, left index = rowMajor n (entries A) index) :
    solveArrays n width left right = none := by
  have rows : n ≠ 0 := by
    rintro rfl
    exact one_ne_zero (Matrix.det_isEmpty.symm.trans singular)
  have whole := solveArrays_snd width left right rows
  rw [squareOf_eq A coefficients, SolveAndReconstruct_eq, solve_singular A _ singular] at whole
  exact Option.map_eq_none_iff.mp whole

/-- The words of a stored array. -/
theorem wordAt_array (count : ℕ) (array : ℕ → Gf64) :
    ∀ index < count, wordAt (ofWords count array) index = array index :=
  fun index inside => wordAt_ofWords count array index inside

theorem solve_and_reconstruct_eq (A_buf rhsBlocks : Buffer) (words : 0 < width) (rows : n ≠ 0) :
    solve_and_reconstruct A_buf rhsBlocks n (8 * width) =
      (solveArrays n width (wordAt A_buf) (wordAt rhsBlocks)).map fun arrays =>
        (ofWords (n * n) arrays.1, ofWords (n * width) arrays.2) := by
  have whole : ¬ (8 * width < 8 ∨ 8 * width % 8 ≠ 0) := by omega
  have words : 8 * width / 8 = width := by omega
  rw [solve_and_reconstruct, if_neg rows, if_neg whole]
  simp only [words]

/-- There is one solution if the matrix is nonsingular. -/
theorem exists_solution (A : Matrix (Fin n) (Fin n) Gf64) (B : Matrix (Fin n) (Fin width) Gf64)
    (nonsingular : A.det ≠ 0) :
    ∃ X : Matrix (Fin n) (Fin width) Gf64, A * X = B ∧
      ∀ Y : Matrix (Fin n) (Fin width) Gf64, A * Y = B → Y = X := by
  have unit : IsUnit A.det := isUnit_iff_ne_zero.mpr nonsingular
  refine ⟨A⁻¹ * B, Matrix.mul_nonsing_inv_cancel_left A B unit, ?_⟩
  rintro Y rfl
  exact (Matrix.nonsing_inv_mul_cancel_left A Y unit).symm

/-- The fallback takes the same steps on the words of its buffers. -/
theorem solve_and_reconstruct_solution (A : Matrix (Fin n) (Fin n) Gf64)
    (B X : Matrix (Fin n) (Fin width) Gf64) (nonsingular : A.det ≠ 0) (product : A * X = B)
    (words : 0 < width) :
    ∃ reduced, solve_and_reconstruct (ofWords (n * n) (rowMajor n (entries A)))
      (ofWords (n * width) (rowMajor width (entries B))) n (8 * width) =
        some (reduced, ofWords (n * width) (rowMajor width (entries X))) := by
  rcases eq_or_ne n 0 with rfl | rows
  · exact ⟨[], by simp [solve_and_reconstruct, ofWords]⟩
  · obtain ⟨reduced, result, returned, same⟩ := solveArrays_solution A B X nonsingular product
      (wordAt_array _ _) (wordAt_array _ _)
    refine ⟨ofWords (n * n) reduced, ?_⟩
    rw [solve_and_reconstruct_eq _ _ words rows, returned, Option.map_some,
      ofWords_congr _ same]

theorem solve_and_reconstruct_singular (A : Matrix (Fin n) (Fin n) Gf64) (rhsBlocks : Buffer)
    (singular : A.det = 0) (words : 0 < width) :
    solve_and_reconstruct (ofWords (n * n) (rowMajor n (entries A))) rhsBlocks n (8 * width) =
      none := by
  have rows : n ≠ 0 := by
    rintro rfl
    exact one_ne_zero (Matrix.det_isEmpty.symm.trans singular)
  rw [solve_and_reconstruct_eq _ _ words rows,
    solveArrays_singular A singular (wordAt_array _ _), Option.map_none]

/-! ## All solvers -/

/-- Over blocks of at least one word, the four solvers succeed for a nonsingular matrix, all
with the only solution, and fail for a singular one. -/
theorem solvers_return_solution (A : Matrix (Fin n) (Fin n) Gf64)
    (B : Matrix (Fin n) (Fin width) Gf64) (words : 0 < width) :
    (A.det ≠ 0 → ∃ X, A * X = B ∧ (∀ Y, A * Y = B → Y = X) ∧
      (∃ reduced result, solveArrays n width (rowMajor n (entries A)) (rowMajor width (entries B)) =
          some (reduced, result) ∧
        ∀ index < n * width, result index = rowMajor width (entries X) index) ∧
      (∃ reduced, solve_and_reconstruct (ofWords (n * n) (rowMajor n (entries A)))
          (ofWords (n * width) (rowMajor width (entries B))) n (8 * width) =
        some (reduced, ofWords (n * width) (rowMajor width (entries X)))) ∧
      ∀ col, gf64_solve_array n (rowMajor n (entries A)) (columnOf B col) =
          some (fun row => X row col) ∧
        gf64_js_solve_buffer n (ofWords (n * n) (rowMajor n (entries A)))
          (ofWords n (columnOf B col)) = some (ofWords n (columnOf X col))) ∧
    (A.det = 0 →
      solveArrays n width (rowMajor n (entries A)) (rowMajor width (entries B)) = none ∧
      solve_and_reconstruct (ofWords (n * n) (rowMajor n (entries A)))
        (ofWords (n * width) (rowMajor width (entries B))) n (8 * width) = none ∧
      ∀ col, gf64_solve_array n (rowMajor n (entries A)) (columnOf B col) = none ∧
        gf64_js_solve_buffer n (ofWords (n * n) (rowMajor n (entries A)))
          (ofWords n (columnOf B col)) = none) := by
  have stored := wordAt_array (n * n) (rowMajor n (entries A))
  have readBack : squareOf n (rowMajor n (entries A)) = A := squareOf_eq A fun _ _ => rfl
  have readWords := squareOf_eq A stored
  have column (col : Fin width) : (fun row : Fin n => wordAt (ofWords n (columnOf B col)) row) =
      fun row => B row col := by
    funext row
    rw [wordAt_ofWords n _ _ row.isLt, columnOf_apply]
  refine ⟨fun nonsingular => ?_, fun singular => ⟨?_, ?_, fun col => ⟨?_, ?_⟩⟩⟩
  · obtain ⟨X, product, only⟩ := exists_solution A B nonsingular
    refine ⟨X, product, only, ?_, ?_, fun col => ⟨?_, ?_⟩⟩
    · exact solveArrays_solution A B X nonsingular product (fun _ _ => rfl) fun _ _ => rfl
    · exact solve_and_reconstruct_solution A B X nonsingular product words
    · rw [gf64_solve_array, readBack, gf64_solve_eq]
      simp only [columnOf_apply]
      exact solve_column A B X nonsingular product col
    · rw [gf64_js_solve_buffer, readWords, gf64_js_solve_eq, column,
        solve_column A B X nonsingular product col]
      rfl
  · exact solveArrays_singular A singular fun _ _ => rfl
  · exact solve_and_reconstruct_singular A _ singular words
  · rw [gf64_solve_array, readBack, gf64_solve_eq, solve_singular A _ singular]
  · rw [gf64_js_solve_buffer, readWords, gf64_js_solve_eq, solve_singular A _ singular]
    rfl

/-- Two equations of one word, one after the other and twice the same. -/
theorem solvers_return_solution_two :
    (∃ X : Matrix (Fin 2) (Fin 1) Gf64, (!![0, 1; 1, 0] : Matrix (Fin 2) (Fin 2) Gf64) * X =
        (!![⟨5⟩; ⟨7⟩] : Matrix (Fin 2) (Fin 1) Gf64) ∧
      ∃ reduced, solve_and_reconstruct
        (ofWords (2 * 2) (rowMajor 2 (entries (!![0, 1; 1, 0] : Matrix (Fin 2) (Fin 2) Gf64))))
        (ofWords (2 * 1) (rowMajor 1 (entries (!![⟨5⟩; ⟨7⟩] : Matrix (Fin 2) (Fin 1) Gf64)))) 2
        (8 * 1) = some (reduced, ofWords (2 * 1) (rowMajor 1 (entries X)))) ∧
      solveArrays 2 1 (rowMajor 2 (entries (!![1, 1; 1, 1] : Matrix (Fin 2) (Fin 2) Gf64)))
        (rowMajor 1 (entries (!![⟨5⟩; ⟨7⟩] : Matrix (Fin 2) (Fin 1) Gf64))) = none := by
  have solved := (solvers_return_solution (!![0, 1; 1, 0] : Matrix (Fin 2) (Fin 2) Gf64)
    (!![⟨5⟩; ⟨7⟩] : Matrix (Fin 2) (Fin 1) Gf64) Nat.one_pos).1 (by simp [Matrix.det_fin_two])
  have singular := (solvers_return_solution (!![1, 1; 1, 1] : Matrix (Fin 2) (Fin 2) Gf64)
    (!![⟨5⟩; ⟨7⟩] : Matrix (Fin 2) (Fin 1) Gf64) Nat.one_pos).2 (by simp [Matrix.det_fin_two])
  obtain ⟨X, product, _, _, returned, _⟩ := solved
  exact ⟨⟨X, product, returned⟩, singular.1⟩

/-- Blocks of no bytes make the fallback fail on a nonsingular matrix, where the native solver
succeeds. -/
theorem fallback_needs_words :
    (1 : Matrix (Fin 1) (Fin 1) Gf64).det ≠ 0 ∧
      solve_and_reconstruct (ofWords (1 * 1) (rowMajor 1 (entries (1 : Matrix (Fin 1) (Fin 1) Gf64))))
        [] 1 0 = none ∧
      (solveArrays 1 0 (rowMajor 1 (entries (1 : Matrix (Fin 1) (Fin 1) Gf64))) fun _ => 0).isSome :=
  ⟨by simp, rfl, by decide⟩

end Par3
