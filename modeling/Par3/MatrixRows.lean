import Par3.Gf16Pmul
import Par3.InvertContract

/-!
# The rows of the matrix

Rows that follow the row before them are products of that row with the one of the exponent one, which the
kernel takes register by register. The matrix is the same as if every coefficient were a power of the
base of its input, and the column of an input is where the elimination looks for it.
-/

namespace Par3

open BinaryField Word VectorLanes

namespace Galois16RecMatrix

/-- The column of an input. -/
def inputColumn (inputValid : List Bool) (input : ℕ) : ℕ :=
  if inputValid.getD input true then (inputValid.take input).count true
  else inputValid.count true + (inputValid.take input).count false

theorem inputsWhere_place (valid : Bool) (inputValid : List Bool) (start : ℕ) {input : ℕ}
    (here : inputValid[input]? = some valid) :
    (inputsWhere valid inputValid start)[(inputValid.take input).count valid]? = some (start + input) := by
  induction inputValid generalizing start input with
  | nil => cases here
  | cons first rest ih =>
    cases input with
    | zero =>
      rw [List.getElem?_cons_zero] at here
      rw [inputsWhere, if_pos (Option.some.inj here)]
      rfl
    | succ input =>
      rw [List.getElem?_cons_succ] at here
      have later := ih (start + 1) here
      have place : start + 1 + input = start + (input + 1) := by omega
      rw [place] at later
      rw [inputsWhere, List.take_succ_cons, List.count_cons]
      by_cases same : first = valid
      · rw [if_pos same, if_pos (beq_iff_eq.mpr same), List.getElem?_cons_succ]
        exact later
      · rw [if_neg same, if_neg fun equal => same (beq_iff_eq.mp equal), Nat.add_zero]
        exact later

/-- The column of an input is its own. -/
theorem columns_inputColumn {inputValid : List Bool} {input : ℕ} (inside : input < inputValid.length) :
    (columns inputValid)[inputColumn inputValid input]? = some input := by
  have here := List.getElem?_eq_getElem inside
  rw [inputColumn, List.getD_eq_getElem _ _ inside, columns]
  cases valid : inputValid[input] with
  | true =>
    rw [valid] at here
    have place := inputsWhere_place true inputValid 0 here
    rw [Nat.zero_add] at place
    rw [if_pos rfl, List.getElem?_append_left (List.getElem?_eq_some_iff.mp place).1]
    exact place
  | false =>
    rw [valid] at here
    have place := inputsWhere_place false inputValid 0 here
    rw [Nat.zero_add] at place
    rw [if_neg Bool.false_ne_true, ← inputsWhere_length true inputValid 0,
      List.getElem?_append_right (Nat.le_add_right _ _), Nat.add_sub_cancel_left]
    exact place

variable (matrix : Galois16RecMatrix)

/-- A row that follows the one before it, with registers of so many lanes. -/
def pmulRow (lanes : ℕ) (recovery : List ℕ) (recStart stripe : ℕ) (mat : RecWords) (rec : ℕ) :
    RecWords :=
  let lastExp := if rec = recStart + 1 then 1 else recovery.getD (rec - 1) 0
  if recovery.getD rec 0 ≠ lastExp + 1 then mat
  else
    gf16pmul lanes (matrix.MAT_ROW stripe rec) (matrix.MAT_ROW stripe recStart)
      (matrix.MAT_ROW stripe (rec - 1)) matrix.stripeWords mat

variable {matrix}

theorem pmulRow_eq {lanes : ℕ} (whole : 8 * lanes ∣ matrix.stripeWords) (recovery : List ℕ)
    {recStart rec : ℕ} (behind : recStart < rec) (stripe : ℕ) (mat : RecWords) :
    matrix.pmulRow lanes recovery recStart stripe mat rec =
      matrix.multiplyRow recovery recStart stripe mat rec := by
  have before {row : ℕ} (earlier : row < rec) :
      matrix.MAT_ROW stripe row + matrix.stripeWords ≤ matrix.MAT_ROW stripe rec := by
    rw [MAT_ROW, MAT_ROW, ← Nat.succ_mul]
    exact Nat.mul_le_mul_right _ (by omega)
  rw [pmulRow, multiplyRow]
  by_cases follows : recovery.getD rec 0 =
      (if rec = recStart + 1 then 1 else recovery.getD (rec - 1) 0) + 1
  · rw [if_neg (not_not.mpr follows), if_pos follows]
    funext address
    exact gf16pmul_eq whole (.inl (before behind)) (.inl (before (by omega))) mat address
  · rw [if_pos follows, if_neg follows]

/-- The rows of all stripes, computed by the kernel. -/
theorem pmulRows_eq {lanes : ℕ} (whole : 8 * lanes ∣ matrix.stripeWords) (recovery : List ℕ)
    (recStart : ℕ) (mat : RecWords) :
    (List.range matrix.numStripes).foldl (fun mat stripe =>
        (List.range' (recStart + 1) (matrix.numRec - (recStart + 1))).foldl
          (matrix.pmulRow lanes recovery recStart stripe) mat) mat =
      (List.range matrix.numStripes).foldl (fun mat stripe =>
        (List.range' (recStart + 1) (matrix.numRec - (recStart + 1))).foldl
          (matrix.multiplyRow recovery recStart stripe) mat) mat := by
  congr 1
  funext mat stripe
  apply List.foldl_ext
  intro mat rec member
  have bounds := List.mem_range'_1.mp member
  exact pmulRow_eq whole recovery (by omega) stripe mat

/-- Whichever way the rows are computed, a coefficient is the power of the base of its input, in the
column where the elimination expects it. The kernel computes products of words. -/
theorem Construct_rows (shaped : matrix.Shaped) {inputValid : List Bool}
    (valid : matrix.validCount = inputValid.count true)
    (width : matrix.validCount + matrix.numRec = inputValid.length)
    (inputs : inputValid.length ≤ 32768) {recovery : List ℕ} (enough : matrix.numRec ≤ recovery.length)
    (exponents : ∀ exponent ∈ recovery, exponent < 2 ^ 16) :
    (∀ mat : RecWords, ∀ input < inputValid.length, ∀ row < matrix.numRec,
      matrix.GetFactor (matrix.Construct inputValid recovery mat) (inputColumn inputValid input) row =
        (root ^ gfmat_input_log input) ^ recovery.getD row 0) ∧
    (∀ (method : InvertMethod) (mat other : RecWords), ∀ col < inputValid.length,
      ∀ row < matrix.numRec,
        matrix.GetFactor (({ matrix with method := method } : Galois16RecMatrix).Construct inputValid
            recovery other) col row =
          matrix.GetFactor (matrix.Construct inputValid recovery mat) col row) ∧
    (∀ (lanes recStart : ℕ) (mat : RecWords), 8 * lanes ∣ matrix.stripeWords →
      (List.range matrix.numStripes).foldl (fun mat stripe =>
          (List.range' (recStart + 1) (matrix.numRec - (recStart + 1))).foldl
            (matrix.pmulRow lanes recovery recStart stripe) mat) mat =
        (List.range matrix.numStripes).foldl (fun mat stripe =>
          (List.range' (recStart + 1) (matrix.numRec - (recStart + 1))).foldl
            (matrix.multiplyRow recovery recStart stripe) mat) mat) ∧
    ∀ (data1 data2 : BitVec 128), ∀ i < 8, (⟨laneOf 16 (gf16pmul_reg data1 data2) i⟩ : Gf16) =
      ⟨laneOf 16 data1 i⟩ * ⟨laneOf 16 data2 i⟩ := by
  have small : ∀ input < inputValid.length, gfmat_input_log input < 2 ^ 16 := fun input inside =>
    (gfmat_input_log_lt (by omega)).trans (by decide)
  have powers (index : ℕ) : recovery.getD index 0 < 2 ^ 16 := by
    by_cases inside : index < recovery.length
    · rw [List.getD_eq_getElem _ _ inside]
      exact exponents _ (List.getElem_mem inside)
    · rw [List.getD_eq_default _ _ (Nat.not_lt.mp inside)]
      decide
  have factor (mat : RecWords) (col row : ℕ) :
      matrix.GetFactor mat col row = mat (matrix.cell row col) := by
    rw [GetFactor, cell, MAT_ROW]
    congr 1
    ring
  have built {any : Galois16RecMatrix} (shape : any.Shaped) (sameCount : any.validCount = matrix.validCount)
      (sameRec : any.numRec = matrix.numRec) (mat : RecWords) :=
    Construct_levelled shape recovery (sameCount.trans valid) (by rw [sameCount, sameRec, width])
      (sameRec ▸ enough) powers small mat
  refine ⟨?_, ?_, fun lanes recStart mat whole => pmulRows_eq whole recovery recStart mat, ?_⟩
  · intro mat input inside row rowInside
    have place := columns_inputColumn inside
    have column : inputColumn inputValid input < inputValid.length := by
      rw [← columns_length]
      exact (List.getElem?_eq_some_iff.mp place).1
    rw [factor, built shaped rfl rfl mat row rowInside _ (by rw [width]; exact column)]
    change coefficients inputValid recovery row _ = _
    rw [coefficients, List.getD_eq_getElem?_getD, place, Option.getD_some,
      gfmat_coeff_from_log_eq (small input inside) (powers row)]
  · intro method mat other col known row inside
    have shape : ({ matrix with method := method } : Galois16RecMatrix).Shaped :=
      ⟨shaped.words_pos, shaped.wide⟩
    rw [factor, factor, built shaped rfl rfl mat row inside col (by rw [width]; exact known)]
    exact built shape rfl rfl other row inside col (by rw [← width] at known; exact known)
  · intro data1 data2 i inside
    rw [gf16pmul_reg_word _ _ inside, gf16pmul_word]

/-- The last of four rows that follow each other. -/
theorem Construct_rows_four :
    (setup { scalarMethod with canUseFastMul := true } 4 0).GetFactor
        ((setup { scalarMethod with canUseFastMul := true } 4 0).Construct [false, false, false, false]
          [1, 2, 3, 4] fun _ => 0) (inputColumn [false, false, false, false] 2) 3 =
      (root ^ gfmat_input_log 2) ^ 4 :=
  (Construct_rows (setup_shaped { scalarMethod with canUseFastMul := true } (by decide)) (by decide)
    (by decide) (by decide) (by decide) (by decide)).1 (fun _ => 0) 2 (by decide) 3 (by decide)

end Galois16RecMatrix

end Par3
