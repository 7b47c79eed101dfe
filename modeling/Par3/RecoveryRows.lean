import Par3.Foundations.LeadingMinors
import Par3.InvertContract

/-!
# Recovery slices that are kept

An inversion drops the recovery slice of the first pivot that is zero and starts again. The slices that
it ends with are found by one walk over the exponents in ascending order: a slice is taken when the
leading minor that it makes with those taken before it is not zero. A slice that was passed over is not
looked at again, so that the walk can end with too few slices although some other choice is invertible.
-/
namespace Par3

open BinaryField Word PivotExchange

namespace Galois16RecMatrix

variable (inputValid : List Bool)

/-! ## Choices of recovery slices -/

/-- The coefficients of the first missing inputs in as many recovery slices. -/
def missingCoefficients (rows : List ℕ) (size : ℕ) : Matrix (Fin size) (Fin size) Gf16 :=
  .of fun row col =>
    ((root : Gf16) ^ gfmat_input_log ((inputsWhere false inputValid 0).getD col 0)) ^ rows.getD row 0

/-- The recovery slices determine as many missing inputs. -/
def Invertible (rows : List ℕ) : Prop := (missingCoefficients inputValid rows rows.length).det ≠ 0

instance (rows : List ℕ) : Decidable (Invertible inputValid rows) :=
  inferInstanceAs (Decidable ((missingCoefficients inputValid rows rows.length).det ≠ 0))

/-- Of the given slices that may be chosen, as many as inputs are missing are an invertible choice. -/
def Chosen (recovery rows : List ℕ) : Prop :=
  rows.Subperm recovery ∧ rows.length = inputValid.count false ∧ Invertible inputValid rows

/-- The slices that one walk takes, behind those that it has taken. -/
def takenRows (taken : List ℕ) : List ℕ → List ℕ
  | [] => taken
  | exponent :: rest =>
    if taken.length < inputValid.count false ∧ Invertible inputValid (taken ++ [exponent]) then
      takenRows (taken ++ [exponent]) rest
    else takenRows taken rest

section Walk

variable {inputValid}

/-- Other slices have other rows. -/
theorem missingCoefficients_take (rows : List ℕ) (size : ℕ) :
    missingCoefficients inputValid (rows.take size) size = missingCoefficients inputValid rows size := by
  refine Matrix.ext fun row col => ?_
  have same : (rows.take size).getD row 0 = rows.getD row 0 := by
    rw [List.getD_eq_getElem?_getD, List.getElem?_take_of_lt row.isLt, ← List.getD_eq_getElem?_getD]
  rw [missingCoefficients, missingCoefficients, Matrix.of_apply, Matrix.of_apply, same]

theorem takenRows_cons_neg {taken rest : List ℕ} {exponent : ℕ}
    (singular : ¬ Invertible inputValid (taken ++ [exponent])) :
    takenRows inputValid taken (exponent :: rest) = takenRows inputValid taken rest := by
  rw [takenRows, if_neg fun both => singular both.2]

theorem takenRows_full {taken : List ℕ} (full : inputValid.count false ≤ taken.length) (rest : List ℕ) :
    takenRows inputValid taken rest = taken := by
  induction rest with
  | nil => rfl
  | cons exponent rest ih =>
    rw [takenRows, if_neg fun both => Nat.not_lt.mpr full both.1, ih]

/-- Slices whose minors are not zero are taken. -/
theorem takenRows_append {taken first : List ℕ} (few : taken.length + first.length ≤ inputValid.count false)
    (regular : ∀ count < first.length, Invertible inputValid (taken ++ first.take (count + 1)))
    (rest : List ℕ) :
    takenRows inputValid taken (first ++ rest) = takenRows inputValid (taken ++ first) rest := by
  induction first generalizing taken with
  | nil => rw [List.nil_append, List.append_nil]
  | cons exponent first ih =>
    rw [List.length_cons] at few
    have one := regular 0 (Nat.zero_lt_succ _)
    rw [List.take_succ_cons, List.take_zero] at one
    rw [List.cons_append, takenRows, if_pos ⟨by omega, one⟩, ih]
    · rw [List.append_assoc, List.singleton_append]
    · rw [List.length_append, List.length_singleton]
      omega
    · intro count inside
      have next := regular (count + 1) (Nat.succ_lt_succ inside)
      rw [List.take_succ_cons] at next
      rw [List.append_assoc, List.singleton_append]
      exact next

/-- What is taken comes from the list, in its order. -/
theorem takenRows_sublist (taken rest : List ℕ) :
    ∃ more, takenRows inputValid taken rest = taken ++ more ∧ more.Sublist rest := by
  induction rest generalizing taken with
  | nil => exact ⟨[], (List.append_nil _).symm, List.Sublist.refl _⟩
  | cons exponent rest ih =>
    rw [takenRows]
    split
    case isTrue =>
      obtain ⟨more, eq, sublist⟩ := ih (taken ++ [exponent])
      refine ⟨exponent :: more, ?_, sublist.cons_cons exponent⟩
      rw [eq, List.append_assoc, List.singleton_append]
    case isFalse =>
      obtain ⟨more, eq, sublist⟩ := ih taken
      exact ⟨more, eq, sublist.cons exponent⟩

theorem takenRows_invertible {taken : List ℕ} (regular : Invertible inputValid taken) (rest : List ℕ) :
    Invertible inputValid (takenRows inputValid taken rest) := by
  induction rest generalizing taken with
  | nil => exact regular
  | cons exponent rest ih =>
    rw [takenRows]
    split
    case isTrue both => exact ih both.2
    case isFalse => exact ih regular

theorem nil_invertible : Invertible inputValid [] := by
  rw [Invertible, List.length_nil, Matrix.det_fin_zero]
  exact one_ne_zero

end Walk

/-! ## The retries -/

section Retries

variable {inputValid} {matrix : Galois16RecMatrix} (ready : Ready matrix inputValid)
  (small : inputValid.length ≤ 32768) {recovery : List ℕ}
  (exponents : ∀ exponent ∈ recovery, exponent < 2 ^ 16)

include ready in
theorem Ready.missing : matrix.numRec = inputValid.count false := by
  have counts := List.count_not_add_count inputValid true
  have valid := ready.valid
  have width := ready.width
  rw [Bool.not_true] at counts
  omega

include ready small exponents

/-- The leading minors of the matrix that is built are those of its recovery slices. -/
theorem leading_eq {size : ℕ} (inside : size ≤ matrix.numRec) :
    leading (coefficients inputValid recovery) matrix.validCount size =
      missingCoefficients inputValid recovery size := by
  have missing := ready.missing
  have width := ready.width
  have validLength : (inputsWhere true inputValid 0).length = matrix.validCount := by
    rw [inputsWhere_length, ready.valid]
  refine Matrix.ext fun row col => ?_
  have below := col.isLt
  have column : (columns inputValid).getD (matrix.validCount + col) 0 =
      (inputsWhere false inputValid 0).getD col 0 := by
    rw [columns, List.getD_append_right _ _ _ _ (by omega), validLength, Nat.add_sub_cancel_left]
  have known : (columns inputValid).getD (matrix.validCount + col) 0 < inputValid.length :=
    columns_lt (by omega)
  have exponent : recovery.getD row 0 < 2 ^ 16 := by
    by_cases given : (row : ℕ) < recovery.length
    · rw [List.getD_eq_getElem _ _ given]
      exact exponents _ (List.getElem_mem given)
    · rw [List.getD_eq_default _ _ (Nat.not_lt.mp given)]
      decide
  have log : gfmat_input_log ((columns inputValid).getD (matrix.validCount + col) 0) < 2 ^ 16 :=
    (gfmat_input_log_lt (by omega)).trans (by decide)
  rw [leading, Matrix.of_apply, missingCoefficients, Matrix.of_apply, coefficients,
    gfmat_coeff_from_log_eq log exponent, column]

/-- Rows whose pivots are not zero are invertible up to each of them. -/
theorem invertible_take {count : ℕ} (inside : count ≤ matrix.numRec) (given : count ≤ recovery.length)
    (nonzero : ∀ row < count, pivot (coefficients inputValid recovery) matrix.validCount row ≠ 0) :
    Invertible inputValid (recovery.take count) := by
  have regular := leading_det_ne nonzero
  rw [leading_eq ready small exponents inside] at regular
  rw [Invertible, List.length_take, Nat.min_eq_left given, missingCoefficients_take]
  exact regular

/-- The first row whose pivot is zero is not. -/
theorem singular_take {row : ℕ} (inside : row < matrix.numRec) (given : row < recovery.length)
    (nonzero : ∀ earlier < row, pivot (coefficients inputValid recovery) matrix.validCount earlier ≠ 0)
    (zero : pivot (coefficients inputValid recovery) matrix.validCount row = 0) :
    ¬ Invertible inputValid (recovery.take (row + 1)) := by
  have singular := leading_det_eq nonzero zero
  rw [leading_eq ready small exponents inside] at singular
  rw [Invertible, List.length_take, Nat.min_eq_left given, missingCoefficients_take]
  exact not_not.mpr singular

/-- The retries end with the slices that one walk takes. -/
theorem invert_loop_kept (fuel : ℕ) (room : recovery.length < fuel) (mat : RecWords) :
    (matrix.invert_loop inputValid fuel recovery mat).map Prod.fst =
      if (takenRows inputValid [] recovery).length = inputValid.count false then
        some (takenRows inputValid [] recovery)
      else none := by
  have missing := ready.missing
  induction fuel generalizing recovery mat with
  | zero => omega
  | succ fuel ih =>
    rw [invert_loop]
    by_cases few : matrix.numRec > recovery.length
    · obtain ⟨more, eq, sublist⟩ := @takenRows_sublist inputValid [] recovery
      have short := sublist.length_le
      rw [if_pos few, eq, List.nil_append, if_neg (by omega)]
      rfl
    rw [if_neg few]
    obtain ⟨processed, all⟩ := ready.processed small exponents (by omega) recovery.length mat
    cases result : [6, 5, 4, 3, 2, 1].foldlM (matrix.INVERT_GROUP recovery.length)
        (0, matrix.Construct inputValid recovery mat) with
    | error failed =>
      rw [result] at processed
      obtain ⟨row, mat⟩ := failed
      obtain ⟨⟨-, inside⟩, zero, nonzero⟩ := processed
      have given : row < recovery.length := by omega
      have regular : ∀ count ≤ row, Invertible inputValid (recovery.take count) := by
        intro count before
        exact invertible_take ready small exponents (by omega) (by omega)
          fun earlier below => nonzero earlier (Nat.zero_le _) (by omega)
      have singular := singular_take ready small exponents inside given
        (fun earlier below => nonzero earlier (Nat.zero_le _) below) zero
      -- the walk takes the rows before the one that is dropped, and passes over that one
      have walk (rest : List ℕ) : takenRows inputValid [] (recovery.take row ++ rest) =
          takenRows inputValid (recovery.take row) rest := by
        refine takenRows_append ?_ ?_ rest
        · rw [List.length_nil, List.length_take]
          omega
        · intro count below
          rw [List.length_take] at below
          rw [List.nil_append, List.take_take, Nat.min_eq_left (by omega)]
          exact regular _ (by omega)
      have same : takenRows inputValid [] (recovery.eraseIdx row) = takenRows inputValid [] recovery := by
        have split : recovery.take row ++ recovery[row] :: recovery.drop (row + 1) = recovery := by
          rw [← List.drop_eq_getElem_cons given, List.take_append_drop]
        have last : recovery.take row ++ [recovery[row]] = recovery.take (row + 1) :=
          (List.take_succ_eq_append_getElem given).symm
        conv_rhs => rw [← split, walk]
        rw [List.eraseIdx_eq_take_drop_succ, walk, takenRows_cons_neg]
        rw [last]
        exact singular
      dsimp only
      rw [ih, same]
      · exact fun exponent member => exponents exponent (List.mem_of_mem_eraseIdx member)
      · rw [List.length_eraseIdx_of_lt given]
        omega
    | ok last =>
      rw [result] at processed
      have reached := all last result
      obtain ⟨rec, mat⟩ := last
      obtain ⟨-, nonzero, -⟩ := processed
      obtain rfl : rec = matrix.numRec := reached
      have walk : takenRows inputValid [] recovery = recovery.take matrix.numRec := by
        conv_lhs => rw [← List.take_append_drop matrix.numRec recovery]
        rw [takenRows_append, List.nil_append, takenRows_full]
        · rw [List.length_take]
          omega
        · rw [List.length_nil, List.length_take]
          omega
        · intro count below
          rw [List.length_take] at below
          rw [List.nil_append, List.take_take, Nat.min_eq_left (by omega)]
          exact invertible_take ready small exponents (by omega) (by omega)
            fun earlier early => nonzero earlier (Nat.zero_le _) (by omega)
      rw [walk, if_pos]
      · rfl
      · rw [List.length_take]
        omega

end Retries

theorem Compute_kept (method : InvertMethod) {inputValid : List Bool} (missing : false ∈ inputValid)
    (small : inputValid.length ≤ 32768) {recovery : List ℕ}
    (exponents : ∀ exponent ∈ recovery, exponent < 2 ^ 16) (mat : RecWords) :
    (Compute method inputValid (inputValid.count true) recovery mat).map Prod.fst =
      if (takenRows inputValid [] (recovery.insertionSort (· ≤ ·))).length = inputValid.count false then
        some (takenRows inputValid [] (recovery.insertionSort (· ≤ ·)))
      else none := by
  have perm := List.perm_insertionSort (· ≤ ·) recovery
  rw [Compute]
  simp only [setup_numRec]
  by_cases few : inputValid.count false > recovery.length
  · obtain ⟨more, eq, sublist⟩ := @takenRows_sublist inputValid [] (recovery.insertionSort (· ≤ ·))
    have short := sublist.length_le
    rw [perm.length_eq] at short
    rw [if_pos few, eq, List.nil_append, if_neg (by omega)]
    rfl
  · rw [if_neg few]
    apply invert_loop_kept (setup_ready method missing) small
    · exact fun exponent member => exponents exponent (perm.mem_iff.mp member)
    · rw [perm.length_eq]
      exact Nat.lt_succ_self _

/-- `Compute` fails only when no choice of slices is invertible, and otherwise keeps one, if and only if
no choice is or the walk over the exponents in ascending order takes enough slices. -/
theorem Compute_complete_iff (method : InvertMethod) {inputValid : List Bool}
    (missing : false ∈ inputValid) (small : inputValid.length ≤ 32768) {recovery : List ℕ}
    (exponents : ∀ exponent ∈ recovery, exponent < 2 ^ 16) (mat : RecWords) :
    ((Compute method inputValid (inputValid.count true) recovery mat = none →
        ∀ rows, ¬ Chosen inputValid recovery rows) ∧
      ∀ kept result, Compute method inputValid (inputValid.count true) recovery mat =
        some (kept, result) → Chosen inputValid recovery kept) ↔
      (∀ rows, ¬ Chosen inputValid recovery rows) ∨
        (takenRows inputValid [] (recovery.insertionSort (· ≤ ·))).length = inputValid.count false := by
  have perm := List.perm_insertionSort (· ≤ ·) recovery
  have computed := Compute_kept method missing small exponents mat
  obtain ⟨more, eq, sublist⟩ := @takenRows_sublist inputValid [] (recovery.insertionSort (· ≤ ·))
  have regular := takenRows_invertible (@nil_invertible inputValid) (recovery.insertionSort (· ≤ ·))
  have subperm : (takenRows inputValid [] (recovery.insertionSort (· ≤ ·))).Subperm recovery := by
    rw [eq, List.nil_append]
    exact sublist.subperm.trans perm.subperm
  by_cases enough :
      (takenRows inputValid [] (recovery.insertionSort (· ≤ ·))).length = inputValid.count false
  · rw [if_pos enough] at computed
    refine iff_of_true ⟨?_, ?_⟩ (Or.inr enough)
    · intro failed
      rw [failed] at computed
      cases computed
    · intro kept result succeeded
      rw [succeeded] at computed
      obtain rfl : kept = _ := Option.some.inj computed
      exact ⟨subperm, enough, regular⟩
  · rw [if_neg enough, Option.map_eq_none_iff] at computed
    rw [computed]
    constructor
    · rintro ⟨none, -⟩
      exact Or.inl (none rfl)
    · rintro (none | full)
      · exact ⟨fun _ => none, fun kept result failed => by cases failed⟩
      · exact absurd full enough

/-- Three of five inputs are missing, and three of four slices are enough for them. -/
theorem Compute_complete_three :
    (Compute scalarMethod [true, false, true, false, false] 2 [5, 0, 2, 1] (fun _ => 0) = none →
        ∀ rows, ¬ Chosen [true, false, true, false, false] [5, 0, 2, 1] rows) ∧
      ∀ kept result, Compute scalarMethod [true, false, true, false, false] 2 [5, 0, 2, 1]
          (fun _ => 0) = some (kept, result) →
        Chosen [true, false, true, false, false] [5, 0, 2, 1] kept :=
  (Compute_complete_iff scalarMethod (by decide) (by decide) (by decide) _).mpr
    (Or.inr (by decide +kernel))

/-- Three of five inputs are missing. The exponent 21845 has the same coefficient for the first two of
them, so that its slice is dropped, and only two are left. -/
theorem Compute_drops_second :
    Compute scalarMethod [false, true, false, true, false] 2 [0, 21845, 21846] (fun _ => 0) = none ∧
      Chosen [false, true, false, true, false] [0, 21845, 21846] [0, 21845, 21846] := by
  have given : ∀ exponent ∈ [0, 21845, 21846], exponent < 2 ^ 16 := by decide
  have missing : false ∈ [false, true, false, true, false] := by decide
  have kept := Compute_kept scalarMethod missing (by decide) given fun _ => 0
  have short : (takenRows [false, true, false, true, false] []
      ([0, 21845, 21846].insertionSort (· ≤ ·))).length ≠
        [false, true, false, true, false].count false := by
    decide +kernel
  constructor
  · rw [if_neg short] at kept
    exact Option.map_eq_none_iff.mp kept
  · refine ⟨List.Subperm.refl _, by decide, ?_⟩
    rw [Invertible]
    simp only [List.length_cons, List.length_nil]
    rw [Matrix.det_fin_three]
    decide +kernel

end Galois16RecMatrix

end Par3
