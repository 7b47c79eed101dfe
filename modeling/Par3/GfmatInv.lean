import Par3.Gf16Reciprocal
import Par3.Foundations.Loops

/-!
# Inverting the matrix of missing inputs

There is a row for every missing input, with the coefficients of a recovery slice for the inputs
that are there and, behind them, for those that are missing. The part behind is inverted in place.
Rows are taken in groups of up to six, and several of these form a row group that is eliminated
before it is applied to the others. A recovery slice whose row has no pivot left is dropped, and the
inversion begins again with the next one.

The matrix is cut into stripes, each of which holds its part of all rows. How a method arranges the
words of a stripe while it works on them is left out, and so is what is fetched ahead.
-/
namespace Par3

open BinaryField Word Interleaving

/-- The words of the matrix, by their place in memory. -/
abbrev RecWords := ℕ → Gf16

/-- A call of a kernel that adds source rows, each multiplied by its coefficient, to a row of a
stripe. -/
structure MulAddCall where
  stripe : ℕ
  target : ℕ
  source : ℕ
  count : ℕ
  coeffs : ℕ → Gf16

/-- What a method and the host determine. Stripes and workers are shared out by rounded multiples of
a ratio. The calls of workers happen in some order, which may be another one for each number of
recovery slices that are left. -/
structure InvertMethod where
  idealChunkSize : ℕ
  stride : ℕ
  idealInputMultiple : ℕ
  numThreads : ℕ
  canUseFastMul : Bool
  share : ℕ → ℕ → ℕ → ℕ
  order : ℕ → List MulAddCall → List MulAddCall
  stride_pos : 0 < stride
  stride_even : 2 ∣ stride
  multiple_pos : 0 < idealInputMultiple
  share_first : ∀ total parts, share total parts 0 = 0
  share_last : ∀ total parts, 0 < parts → share total parts parts = total
  share_monotone : ∀ total parts, Monotone (share total parts)
  order_perm : ∀ left calls, (order left calls).Perm calls

/-- A matrix that is being inverted. -/
structure Galois16RecMatrix where
  method : InvertMethod
  validCount : ℕ
  numRec : ℕ
  numStripes : ℕ
  stripeWords : ℕ
  workers : ℕ
  rowGroupSize : ℕ

/-- A part of an elimination for one worker. -/
structure InvertRequest where
  stripeStart : ℕ
  stripeEnd : ℕ
  recFirst : ℕ
  recLast : ℕ
  coeffOffset : ℕ

namespace Galois16RecMatrix

def CEIL_DIV (a b : ℕ) : ℕ := (a + b - 1) / b

def ROUND_DIV (a b : ℕ) : ℕ := (a + (b >>> 1)) / b

def PP_INVERT_MAX_MULTI_ROWS : ℕ := 6

def MIN_THREAD_REC : ℕ := 10

variable (matrix : Galois16RecMatrix)

def MAT_ROW (stripe row : ℕ) : ℕ := (stripe * matrix.numRec + row) * matrix.stripeWords

/-- The place of a word, as `REPLACE_WORD` and `GetFactor` find it. -/
def cell (row col : ℕ) : ℕ := matrix.MAT_ROW (col / matrix.stripeWords) row + col % matrix.stripeWords

def GetFactor (mat : RecWords) (inIdx recIdx : ℕ) : Gf16 :=
  mat (inIdx / matrix.stripeWords * matrix.numRec * matrix.stripeWords +
    recIdx * matrix.stripeWords + inIdx % matrix.stripeWords)

/-- `gf.mul` on a row of a stripe. -/
def mul (stripe row : ℕ) (factor : Gf16) (mat : RecWords) : RecWords := fun address =>
  if matrix.MAT_ROW stripe row ≤ address ∧
      address < matrix.MAT_ROW stripe row + matrix.stripeWords then
    mat address * factor
  else mat address

/-- `gf.mul_add` and `gf.mul_add_multi` -/
def mul_add_multi (mat : RecWords) (call : MulAddCall) : RecWords := fun address =>
  if matrix.MAT_ROW call.stripe call.target ≤ address ∧
      address < matrix.MAT_ROW call.stripe call.target + matrix.stripeWords then
    mat address + ∑ index ∈ Finset.range call.count, call.coeffs index *
      mat (matrix.MAT_ROW call.stripe (call.source + index) +
        (address - matrix.MAT_ROW call.stripe call.target))
  else mat address

/-- A row of every stripe, one stripe after the other. -/
def mulAddStripes (target source count : ℕ) (coeffs : ℕ → Gf16) (mat : RecWords) : RecWords :=
  ((List.range matrix.numStripes).map fun stripe =>
    (⟨stripe, target, source, count, coeffs⟩ : MulAddCall)).foldl matrix.mul_add_multi mat

/-- Coefficients of a row are taken out of the matrix. -/
def takeCoeffs (row col base count : ℕ) (taken : (ℕ → Gf16) × RecWords) :
    (ℕ → Gf16) × RecWords :=
  (List.range count).foldl (fun (coeff, mat) index =>
    (Function.update coeff (base + index) (mat (matrix.cell row (col + index))),
      Function.update mat (matrix.cell row (col + index)) 0)) taken

/-! ## Scaling -/

/-- An error gives the offset of the row, and the matrix that is left behind. -/
def SCALE_ROW (rec row : ℕ) (mat : RecWords) : Except (ℕ × RecWords) RecWords :=
  let place := matrix.cell (rec + row) (matrix.validCount + rec + row)
  let tmpCoeff := mat place
  let mat := Function.update mat place 1
  if tmpCoeff = 0 then .error (row, mat)
  else if tmpCoeff ≠ 1 then
    .ok ((List.range matrix.numStripes).foldl (fun mat stripe =>
      matrix.mul stripe (rec + row) ⟨gf16_recip tmpCoeff.bits.toNat⟩ mat) mat)
  else .ok mat

def MULADD_ROW (rec rowDst rowSrc : ℕ) (mat : RecWords) : RecWords :=
  let place := matrix.cell rowDst (matrix.validCount + rec + rowSrc)
  let tmpCoeff := mat place
  let mat := Function.update mat place 0
  if tmpCoeff ≠ 0 then matrix.mulAddStripes rowDst (rec + rowSrc) 1 (fun _ => tmpCoeff) mat else mat

def MULADD_MULTI_ROW (rec rowDst srcOffs numRows : ℕ) (mat : RecWords) : RecWords :=
  let (coeff, mat) := matrix.takeCoeffs rowDst (matrix.validCount + rec + srcOffs) 0 numRows
    (fun _ => 0, mat)
  matrix.mulAddStripes rowDst (rec + srcOffs) numRows coeff mat

/-- The rows of a group are eliminated among themselves. -/
def scaleRows (rows rec : ℕ) (mat : RecWords) : Except (ℕ × RecWords) RecWords := do
  let mat ← matrix.SCALE_ROW rec 0 mat
  let mat ← (if rows ≥ 2 then do
      let mat := matrix.MULADD_ROW rec (rec + 1) 0 mat
      let mat ← matrix.SCALE_ROW rec 1 mat
      pure (matrix.MULADD_ROW rec (rec + 0) 1 mat)
    else pure mat)
  let mat ← (if rows ≥ 3 then
      if rows ≥ 4 then do
        let mat := matrix.MULADD_MULTI_ROW rec (rec + 2) 0 2 mat
        let mat ← matrix.SCALE_ROW rec 2 mat
        let mat := matrix.MULADD_MULTI_ROW rec (rec + 3) 0 2 mat
        let mat := matrix.MULADD_ROW rec (rec + 3) 2 mat
        let mat ← matrix.SCALE_ROW rec 3 mat
        let mat := matrix.MULADD_ROW rec (rec + 2) 3 mat
        let mat := matrix.MULADD_MULTI_ROW rec (rec + 0) 2 2 mat
        pure (matrix.MULADD_MULTI_ROW rec (rec + 1) 2 2 mat)
      else do
        let mat := matrix.MULADD_MULTI_ROW rec (rec + 2) 0 2 mat
        let mat ← matrix.SCALE_ROW rec 2 mat
        let mat := matrix.MULADD_ROW rec (rec + 0) 2 mat
        pure (matrix.MULADD_ROW rec (rec + 1) 2 mat)
    else pure mat)
  if rows ≥ 5 then
    if rows ≥ 6 then do
      let mat := matrix.MULADD_MULTI_ROW rec (rec + 4) 0 4 mat
      let mat ← matrix.SCALE_ROW rec 4 mat
      let mat := matrix.MULADD_MULTI_ROW rec (rec + 5) 0 4 mat
      let mat := matrix.MULADD_ROW rec (rec + 5) 4 mat
      let mat ← matrix.SCALE_ROW rec 5 mat
      let mat := matrix.MULADD_ROW rec (rec + 4) 5 mat
      let mat := (List.range 3).foldl (fun mat r => matrix.MULADD_MULTI_ROW rec (rec + r) 4 2 mat) mat
      pure (matrix.MULADD_MULTI_ROW rec (rec + 3) 4 2 mat)
    else do
      let mat := matrix.MULADD_MULTI_ROW rec (rec + 4) 0 4 mat
      let mat ← matrix.SCALE_ROW rec 4 mat
      let mat := (List.range 3).foldl (fun mat r => matrix.MULADD_ROW rec (rec + r) 4 mat) mat
      pure (matrix.MULADD_ROW rec (rec + 3) 4 mat)
  else pure mat

/-! ## Elimination -/

/-- The rows that `fillCoeffs` visits, in at most so many rounds. -/
def fillTargets (rec rows recLast : ℕ) : ℕ → ℕ → List ℕ
  | 0, _ => []
  | fuel + 1, r =>
    if r < recLast then
      if r = rec then fillTargets rec rows recLast fuel (r + rows)
      else r :: fillTargets rec rows recLast fuel (r + 1)
    else []

def fillCoeffs (rows recFirst recLast rec coeffWidth : ℕ) (mat : RecWords) :
    (ℕ → Gf16) × RecWords :=
  (fillTargets rec rows recLast (recLast - recFirst) recFirst).foldl (fun taken r =>
    matrix.takeCoeffs r (matrix.validCount + rec) ((r - recFirst) * coeffWidth) rows taken)
    (fun _ => 0, mat)

/-- The rows that `invertLoop` visits for a group of source rows. -/
def invertTargets (rec rows recLast : ℕ) : ℕ → ℕ → List ℕ
  | 0, _ => []
  | fuel + 1, rec2 =>
    if rec2 < recLast then
      rec2 :: invertTargets rec rows recLast fuel
        (if rec2 + 1 = rec then rec2 + 1 + rows else rec2 + 1)
    else []

def invertLoop (rows recSrc recSrcCount coeffWidth : ℕ) (coeff : ℕ → Gf16)
    (req : InvertRequest) : List MulAddCall :=
  (List.range' req.stripeStart (req.stripeEnd - req.stripeStart)).flatMap fun stripe =>
    (strided 0 recSrcCount rows).flatMap fun recI =>
      (invertTargets (recI + recSrc) rows req.recLast (req.recLast - req.recFirst)
        req.recFirst).map fun curRec2 =>
          { stripe := stripe
            target := curRec2
            source := recI + recSrc
            count := rows
            coeffs := fun index =>
              coeff (req.coeffOffset + ((curRec2 - req.recFirst) * coeffWidth + recI) + index) }

/-- The parts of the rows of a stripe, for its workers. -/
def rowParts (rec rows recLast numRows : ℕ) : ℕ → ℕ → List (ℕ × ℕ)
  | 0, _ => []
  | fuel + 1, rowPos =>
    if rowPos < recLast then
      let sendRows := if rowPos + numRows > rec ∧ rowPos ≤ rec then numRows + rows else numRows
      let sendRows := if rowPos + sendRows > recLast then recLast - rowPos else sendRows
      let next := rowPos + sendRows
      (rowPos, next) :: rowParts rec rows recLast numRows fuel (if next = rec then next + rows else next)
    else []

/-- The requests of an elimination. Without workers there is one for everything. -/
def requests (rows rec recFirst recLast coeffWidth : ℕ) : List InvertRequest :=
  if matrix.workers = 0 then [⟨0, matrix.numStripes, recFirst, recLast, 0⟩]
  else if matrix.numStripes ≥ matrix.workers then
    (List.range matrix.workers).map fun worker =>
      ⟨matrix.method.share matrix.numStripes matrix.workers worker,
        matrix.method.share matrix.numStripes matrix.workers (worker + 1), recFirst, recLast, 0⟩
  else
    (List.range matrix.numStripes).flatMap fun stripe =>
      let workerNum := matrix.method.share matrix.workers matrix.numStripes (stripe + 1) -
        matrix.method.share matrix.workers matrix.numStripes stripe
      let numRows := recLast - recFirst
      let numRows := if rec ≥ recFirst ∧ rec < recLast then numRows - rows else numRows
      let numRows := max (CEIL_DIV numRows workerNum) MIN_THREAD_REC
      (rowParts rec rows recLast numRows (recLast - recFirst) recFirst).map fun (first, last) =>
        ⟨stripe, stripe + 1, first, last, (first - recFirst) * coeffWidth⟩

def applyRows (left rows rec recCount recFirst recLast coeffWidth : ℕ) (coeff : ℕ → Gf16)
    (mat : RecWords) : RecWords :=
  (matrix.method.order left
    ((matrix.requests rows rec recFirst recLast coeffWidth).flatMap
      (invertLoop rows rec recCount coeffWidth coeff))).foldl matrix.mul_add_multi mat

/-- A group of rows is scaled and applied to the others of its row group. -/
def normalizeRows (left rows recStart curRowGroupSize : ℕ) (mat : RecWords) (rec : ℕ) :
    Except (ℕ × RecWords) RecWords := do
  let recFirst := if recStart = rec then recStart + rows else recStart
  let mat ← (matrix.scaleRows rows rec mat).mapError fun (row, mat) => (rec + row, mat)
  if recFirst = curRowGroupSize + recStart then return mat
  let (coeff, mat) := matrix.fillCoeffs rows recFirst (curRowGroupSize + recStart) rec rows mat
  return matrix.applyRows left rows rec rows recFirst (curRowGroupSize + recStart) rows coeff mat

/-- A row group is applied to all others, in at most so many rounds. -/
def applyGroup (left rows recStart curRowGroupSize : ℕ) : ℕ → ℕ → RecWords → RecWords
  | 0, _, mat => mat
  | fuel + 1, recGroup, mat =>
    if recGroup < matrix.numRec then
      if recGroup = recStart then
        applyGroup left rows recStart curRowGroupSize fuel (recGroup + curRowGroupSize) mat
      else
        let size := min (matrix.numRec - recGroup) matrix.rowGroupSize
        let size :=
          if recGroup < recStart ∧ recGroup + size > recStart then recStart - recGroup else size
        let (coeff, mat) := matrix.fillCoeffs curRowGroupSize recGroup (recGroup + size) recStart
          curRowGroupSize mat
        let mat := matrix.applyRows left rows recStart curRowGroupSize recGroup (recGroup + size)
          curRowGroupSize coeff mat
        applyGroup left rows recStart curRowGroupSize fuel (recGroup + size) mat
    else mat

/-- Row groups are processed as long as enough rows are left, in at most so many rounds. An error
gives the row. -/
def processRows (left rows : ℕ) : ℕ → ℕ × RecWords → Except (ℕ × RecWords) (ℕ × RecWords)
  | 0, state => .ok state
  | fuel + 1, (rec, mat) =>
    if rec ≤ matrix.numRec - rows then do
      let curRowGroupSize := matrix.rowGroupSize / rows * rows
      let curRowGroupSize :=
        if matrix.numRec - rec < curRowGroupSize then
          matrix.numRec - rec - (matrix.numRec - rec) % rows
        else curRowGroupSize
      let mat ← (strided rec (curRowGroupSize + rec) rows).foldlM
        (matrix.normalizeRows left rows rec curRowGroupSize) mat
      let mat := matrix.applyGroup left rows rec curRowGroupSize matrix.numRec 0 mat
      processRows left rows fuel (rec + curRowGroupSize, mat)
    else .ok (rec, mat)

def INVERT_GROUP (left : ℕ) (state : ℕ × RecWords) (rows : ℕ) :
    Except (ℕ × RecWords) (ℕ × RecWords) :=
  if matrix.method.idealInputMultiple ≥ rows ∧ matrix.numRec ≥ rows then
    matrix.processRows left rows matrix.numRec state
  else .ok state

/-! ## Construction -/

/-- The inputs with their columns: those that are there come first. -/
def targetCols : List Bool → ℕ → ℕ → ℕ → List (ℕ × ℕ)
  | [], _, _, _ => []
  | true :: rest, input, validCol, missingCol =>
    (input, validCol) :: targetCols rest (input + 1) (validCol + 1) missingCol
  | false :: rest, input, validCol, missingCol =>
    (input, missingCol) :: targetCols rest (input + 1) validCol (missingCol + 1)

def GROUP_AMOUNT : ℕ := 4

/-- Groups of inputs, and the ones that are left over. -/
def inputGroups (cols : List (ℕ × ℕ)) : List (List (ℕ × ℕ)) :=
  ((List.range (cols.length / GROUP_AMOUNT)).map fun group =>
      (cols.drop (GROUP_AMOUNT * group)).take GROUP_AMOUNT) ++
    (cols.drop (cols.length / GROUP_AMOUNT * GROUP_AMOUNT)).map fun col => [col]

def CONSTRUCT_VIA_EXP (cols : List (ℕ × ℕ)) (recovery recs : List ℕ) (mat : RecWords) : RecWords :=
  ((inputGroups cols).flatMap fun group => recs.flatMap fun rec => group.map fun (input, col) =>
    (rec * matrix.stripeWords + (col / matrix.stripeWords * matrix.stripeWords * matrix.numRec +
        col % matrix.stripeWords),
      gfmat_coeff_from_log (gfmat_input_log input) (recovery.getD rec 0))).foldl
    (fun mat (place, coeff) => Function.update mat place coeff) mat

/-- The rows that do not follow the row before them, until there are too many. -/
def recSkips (recovery : List ℕ) (maxSkips : ℕ) : List ℕ → ℕ → List ℕ → List ℕ
  | [], _, skips => skips
  | rec :: rest, lastExp, skips =>
    let exp := recovery.getD rec 0
    if exp ≠ lastExp + 1 then
      if (skips ++ [rec]).length ≥ maxSkips then skips ++ [rec]
      else recSkips recovery maxSkips rest exp (skips ++ [rec])
    else recSkips recovery maxSkips rest exp skips

/-- A row that follows the one before it is that row times the first. -/
def multiplyRow (recovery : List ℕ) (recStart stripe : ℕ) (mat : RecWords) (rec : ℕ) : RecWords :=
  if recovery.getD rec 0 = (if rec = recStart + 1 then 1 else recovery.getD (rec - 1) 0) + 1 then
    fun address =>
      if matrix.MAT_ROW stripe rec ≤ address ∧
          address < matrix.MAT_ROW stripe rec + matrix.stripeWords then
        mat (matrix.MAT_ROW stripe recStart + (address - matrix.MAT_ROW stripe rec)) *
          mat (matrix.MAT_ROW stripe (rec - 1) + (address - matrix.MAT_ROW stripe rec))
      else mat address
  else mat

def Construct (inputValid : List Bool) (recovery : List ℕ) (mat : RecWords) : RecWords :=
  let cols := targetCols inputValid 0 0 matrix.validCount
  let ones := recovery.getD 0 0 = 0
  let recStart := if ones then 1 else 0
  let mat : RecWords :=
    if ones then
      (List.range matrix.numStripes).foldl (fun mat stripe address =>
        if stripe * matrix.numRec * matrix.stripeWords ≤ address ∧
            address < stripe * matrix.numRec * matrix.stripeWords + matrix.stripeWords then 1
        else mat address) mat
    else mat
  let rows := List.range' recStart (matrix.numRec - recStart)
  let later := List.range' (recStart + 1) (matrix.numRec - (recStart + 1))
  if recStart ≥ recovery.length then mat
  else if recovery.getD recStart 0 = 1 ∧ matrix.method.canUseFastMul = true ∧
      (recSkips recovery (matrix.numRec / 2) later 1 [recStart]).length < matrix.numRec / 2 then
    (List.range matrix.numStripes).foldl (fun mat stripe =>
        later.foldl (matrix.multiplyRow recovery recStart stripe) mat)
      (matrix.CONSTRUCT_VIA_EXP cols recovery
        (recSkips recovery (matrix.numRec / 2) later 1 [recStart]) mat)
  else matrix.CONSTRUCT_VIA_EXP cols recovery rows mat

/-! ## Computation -/

/-- The sizes that `Compute` chooses. -/
def setup (method : InvertMethod) (inputs validCount : ℕ) : Galois16RecMatrix :=
  let numRec := inputs - validCount
  let matWidth := inputs * 2
  let numStripes := max (ROUND_DIV matWidth method.idealChunkSize) 1
  let stripeWidth := (CEIL_DIV matWidth numStripes + (method.stride - 1)) / method.stride * method.stride
  let numStripes := CEIL_DIV matWidth stripeWidth
  let numThreads := if numRec < MIN_THREAD_REC then 1 else method.numThreads
  let rowGroupSize := 512 * 1024 / stripeWidth
  let rowGroupSize :=
    if numStripes < numThreads then rowGroupSize * (numThreads / numStripes) else rowGroupSize
  let rowMultiple := min method.idealInputMultiple PP_INVERT_MAX_MULTI_ROWS
  let rowGroupSize := max rowGroupSize (rowMultiple * 2)
  { method := method
    validCount := validCount
    numRec := numRec
    numStripes := numStripes
    stripeWords := stripeWidth / 2
    workers := if numThreads > 1 then numThreads else 0
    rowGroupSize := min rowGroupSize numRec }

/-- `invert_loop`, in at most so many rounds: a recovery slice without a pivot is dropped. -/
def invert_loop (inputValid : List Bool) : ℕ → List ℕ → RecWords → Option (List ℕ × RecWords)
  | 0, _, _ => none
  | fuel + 1, recovery, mat =>
    if matrix.numRec > recovery.length then none
    else
      match [6, 5, 4, 3, 2, 1].foldlM (matrix.INVERT_GROUP recovery.length)
          (0, matrix.Construct inputValid recovery mat) with
      | .error (badRow, mat) => invert_loop inputValid fuel (recovery.eraseIdx badRow) mat
      | .ok (_, mat) => some (recovery.take matrix.numRec, mat)

/-- The recovery slices that were kept and the matrix, if the missing inputs can be computed. The
matrix is built in memory with any contents. -/
def Compute (method : InvertMethod) (inputValid : List Bool) (validCount : ℕ) (recovery : List ℕ)
    (mat : RecWords) : Option (List ℕ × RecWords) :=
  let matrix := setup method inputValid.length validCount
  if matrix.numRec > recovery.length then none
  else
    matrix.invert_loop inputValid (recovery.length + 1)
      (recovery.insertionSort (· ≤ ·)) mat

end Galois16RecMatrix

end Par3
