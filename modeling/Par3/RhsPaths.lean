import Par3.Foundations.FallibleLoops
import Par3.RightHandSide

/-!
# The paths to the right-hand side

The known inputs are subtracted by the native two-dimensional kernel, else by a coupled kernel
for each equation, else by a product buffer for each pair of an input and an equation. A path is
left for the next one when the binding lacks its kernel or when the kernel throws. Each kernel
has range checks of its own, and a block that was read at the end of a truncated file is shorter
than the others.

Every row of the right-hand side has `blockSize` bytes. JavaScript loops run up to the fraction
`blockSize / 8`, native calls truncate it.
-/

namespace Par3

/-- A range error ends the repair. A native read behind a buffer has no defined outcome. -/
inductive RhsError where
  | rangeError
  | outOfBounds
deriving DecidableEq

/-- What the binding offers and which of its calls fail before they compute anything, because an
encoder or the copy of a misaligned buffer cannot be allocated. -/
structure RhsHost where
  Gf64Encoder : Bool
  two_d_muladd_arr : Bool
  twoDFails : Bool
  coupled_muladd_arr : Bool
  coupledFails : Bool
  mul_arr : Bool
  coupledRhs : Bool

/-- The inputs of the computation: the number of equations, the known blocks as they were read,
and the coefficient of each of them in each equation. -/
structure RhsCall where
  n : ℕ
  blockSize : ℕ
  knownBuffers : List Buffer
  cauchyCoeff : ℕ → ℕ → Gf64

namespace RhsCall

/-! ## The kernels with their checks -/

/-- `readBigUInt64LE` -/
def readWord (buf : Buffer) (word : ℕ) : Except RhsError Gf64 :=
  if 8 * word + 8 ≤ buf.length then .ok (wordAt buf word) else .error .rangeError

variable (call : RhsCall)

/-- `writeBigUInt64LE` in a row or in a product buffer -/
def writeWord (out : Words) (word : ℕ) (value : Gf64) : Except RhsError Words :=
  if 8 * word + 8 ≤ call.blockSize then .ok (Function.update out word value)
  else .error .rangeError

def knownCount : ℕ := call.knownBuffers.length

def known (g : ℕ) : Buffer := call.knownBuffers.getD g []

/-- The whole words of a row. -/
def numWords : ℕ := call.blockSize / 8

/-- How often a JavaScript loop below `blockSize / 8` runs. -/
def loopWords : ℕ := (call.blockSize + 7) / 8

/-- The JavaScript product. -/
def mul_arr_js (out : Words) (in_buf : Buffer) (coeff : Gf64) : Except RhsError Words :=
  (List.range call.loopWords).foldlM
    (fun out i => do
      let val ← readWord in_buf i
      call.writeWord out i (val * coeff))
    out

/-- One input of the JavaScript coupled kernel. A zero word is not written. -/
def muladd_js (out : Words) (in_buf : Buffer) (c : Gf64) : Except RhsError Words :=
  if c = 0 then .ok out
  else
    (List.range call.loopWords).foldlM
      (fun out i => do
        let w ← readWord in_buf i
        if w = 0 then pure out else call.writeWord out i (out i + w * c))
      out

def coupled_muladd_arr_js (eq : ℕ) (out : Words) : Except RhsError Words :=
  (List.range call.knownCount).foldlM
    (fun out g => call.muladd_js out (call.known g) (call.cauchyCoeff eq g)) out

/-- The native product checks both buffers. -/
def mul_arr_native (out : Words) (in_buf : Buffer) (coeff : Gf64) : Except RhsError Words :=
  if call.blockSize / 8 < call.numWords ∨ in_buf.length / 8 < call.numWords then .error .rangeError
  else .ok (gf64_region_mul_arr out (wordAt in_buf) (fun _ => coeff) call.numWords 1)

/-- The native coupled kernel does not look at the lengths of the inputs. -/
def coupled_muladd_arr_native (eq : ℕ) (out : Words) : Except RhsError Words :=
  if 65536 < call.knownCount then .error .rangeError
  else if call.knownBuffers.any fun in_block => in_block.length < 8 * call.numWords then
    .error .outOfBounds
  else
    .ok (gf64_region_coupled_muladd_arr out (fun g => wordAt (call.known g)) (call.cauchyCoeff eq)
      call.numWords call.knownCount)

/-- The native two-dimensional kernel: the rows after the call and whether it has returned. Every
check comes before the kernel, so a call that throws leaves the rows as they are. -/
def two_d_muladd_arr_native (fails : Bool) (rhs : ℕ → Words) : (ℕ → Words) × Bool :=
  let K := call.n
  let G := call.knownCount
  if fails || decide (65536 < K) || decide (65536 < G) ||
      decide (call.blockSize < 8 * call.numWords) ||
      call.knownBuffers.any fun in_block => in_block.length < 8 * call.numWords then
    (rhs, false)
  else
    (gf64_region_2d_muladd_arr rhs K (fun g => wordAt (call.known g)) G
      (fun flat => call.cauchyCoeff (flat / call.knownCount) (flat % call.knownCount)) G
      call.numWords, true)

/-! ## The choice among them -/

variable (host : RhsHost)

def canUseTwoDRhs : Bool :=
  host.Gf64Encoder && decide (call.knownCount ≤ 65536) && decide (call.n ≤ 65536) &&
    decide (call.n * call.knownCount ≤ REPAIR_COEFF_MATRIX_MAX_ENTRIES) && host.coupledRhs

inductive CoupledMuladd where
  | native
  | js
deriving DecidableEq

/-- `none` asks for the legacy loop. -/
def selectCoupledMuladd : Option CoupledMuladd :=
  if !host.coupledRhs then none
  else if host.Gf64Encoder && decide (call.knownCount ≤ 65536) && !host.coupledFails &&
      host.coupled_muladd_arr then
    some .native
  else some .js

/-- The coupled loop: one equation after the other. -/
def coupledLoop (coupledFn : ℕ → Words → Except RhsError Words) (rhs : ℕ → Words) :
    Except RhsError (ℕ → Words) :=
  (List.range call.n).foldlM
    (fun rhs eq => do
      let row ← coupledFn eq (rhs eq)
      return Function.update rhs eq row)
    rhs

/-- The product of a block in a cleared buffer, from the kernel that is at hand. -/
def mulArrFn (in_buf : Buffer) (coeff : Gf64) : Except RhsError Words :=
  if host.mul_arr then call.mul_arr_native 0 in_buf coeff else call.mul_arr_js 0 in_buf coeff

/-- The legacy loop: a product for each pair is added to the bytes of the row. -/
def legacyLoop (rhs : ℕ → Words) : Except RhsError (ℕ → Words) :=
  (List.range call.knownCount).foldlM
    (fun rhs ai =>
      (List.range call.n).foldlM
        (fun rhs eq2 => do
          let tmp ← call.mulArrFn host (call.known ai) (call.cauchyCoeff eq2 ai)
          return Function.update rhs eq2 (rhs eq2 + tmp))
        rhs)
    rhs

/-- The coupled kernel for each equation or the legacy loop. -/
def fallback (rhs : ℕ → Words) : Except RhsError (ℕ → Words) :=
  match call.selectCoupledMuladd host with
  | some .native => call.coupledLoop call.coupled_muladd_arr_native rhs
  | some .js => call.coupledLoop call.coupled_muladd_arr_js rhs
  | none => call.legacyLoop host rhs

/-- The right-hand side, from the rows that hold the recovery blocks. -/
def buildRhs (rhs : ℕ → Words) : Except RhsError (ℕ → Words) :=
  if call.knownCount = 0 then .ok rhs
  else if call.canUseTwoDRhs host && host.two_d_muladd_arr then
    let attempt := call.two_d_muladd_arr_native host.twoDFails rhs
    if attempt.2 then .ok attempt.1 else call.fallback host attempt.1
  else call.fallback host rhs

/-! ## Whole blocks -/

open FallibleLoops

/-- Every block consists of whole words and has been read to its end. -/
structure Whole : Prop where
  words : 8 ∣ call.blockSize
  full : ∀ block ∈ call.knownBuffers, call.blockSize ≤ block.length

/-- The combination of the known blocks for a word of an equation. -/
def knownSum (eq w : ℕ) : Gf64 :=
  ∑ g ∈ Finset.range call.knownCount, wordAt (call.known g) w * call.cauchyCoeff eq g

/-- The rows with the known blocks subtracted. -/
def subtracted (rhs : ℕ → Words) : ℕ → Words := fun eq w =>
  if eq < call.n ∧ w < call.numWords then rhs eq w + call.knownSum eq w else rhs eq w

/-- The product buffer of the legacy loop. -/
def product (ai eq : ℕ) : Words := fun w =>
  if w < call.numWords then wordAt (call.known ai) w * call.cauchyCoeff eq ai else 0

section WholeBlocks

variable {call}

theorem known_mem {g : ℕ} (inside : g < call.knownCount) : call.known g ∈ call.knownBuffers := by
  rw [known, List.getD_eq_getElem _ _ inside]
  exact List.getElem_mem inside

variable (whole : call.Whole)

include whole

theorem loopWords_eq : call.loopWords = call.numWords := by
  have words := whole.words
  simp only [loopWords, numWords]
  omega

theorem word_inside {w : ℕ} (inside : w < call.numWords) : 8 * w + 8 ≤ call.blockSize := by
  have words := whole.words
  simp only [numWords] at inside
  omega

theorem readWord_eq {block : Buffer} (member : block ∈ call.knownBuffers) {w : ℕ}
    (inside : w < call.numWords) : readWord block w = .ok (wordAt block w) := by
  apply if_pos
  exact (word_inside whole inside).trans (whole.full block member)

theorem writeWord_eq (out : Words) {w : ℕ} (inside : w < call.numWords) (value : Gf64) :
    call.writeWord out w value = .ok (Function.update out w value) := by
  apply if_pos
  exact word_inside whole inside

theorem mul_arr_js_eq (out : Words) {block : Buffer} (member : block ∈ call.knownBuffers)
    (coeff : Gf64) :
    call.mul_arr_js out block coeff =
      .ok fun w => if w < call.numWords then wordAt block w * coeff else out w := by
  rw [mul_arr_js, loopWords_eq whole,
    foldlM_ok _ fun out w => Function.update out w (wordAt block w * coeff)]
  · rw [foldl_update_range (fun w _ => wordAt block w * coeff)]
  · intro w inside state
    rw [readWord_eq whole member (List.mem_range.mp inside)]
    exact writeWord_eq whole state (List.mem_range.mp inside) _

/-- Zero coefficients and zero words are skipped, which changes nothing. -/
theorem muladd_js_eq (out : Words) {block : Buffer} (member : block ∈ call.knownBuffers)
    (c : Gf64) :
    call.muladd_js out block c =
      .ok fun w => if w < call.numWords then out w + wordAt block w * c else out w := by
  rw [muladd_js]
  split
  case isTrue zero =>
    simp only [zero, mul_zero, add_zero, ite_self]
  case isFalse nonzero =>
    rw [loopWords_eq whole,
      foldlM_ok _ fun out w => Function.update out w (out w + wordAt block w * c)]
    · rw [foldl_update_range (fun w old => old + wordAt block w * c)]
    · intro w inside state
      rw [readWord_eq whole member (List.mem_range.mp inside)]
      change (if wordAt block w = 0 then _ else _) = _
      split
      case isTrue zero =>
        rw [zero, zero_mul, add_zero, Function.update_eq_self]
        rfl
      case isFalse =>
        exact writeWord_eq whole state (List.mem_range.mp inside) _

theorem coupled_muladd_arr_js_eq (eq : ℕ) (out : Words) :
    call.coupled_muladd_arr_js eq out =
      .ok fun w => if w < call.numWords then out w + call.knownSum eq w else out w := by
  rw [coupled_muladd_arr_js, foldlM_ok _ fun out g w =>
    if w < call.numWords then out w + wordAt (call.known g) w * call.cauchyCoeff eq g else out w]
  · rw [foldl_add_within]
    rfl
  · intro g inside state
    exact muladd_js_eq whole state (known_mem (List.mem_range.mp inside)) _

theorem none_short : (call.knownBuffers.any fun in_block =>
    decide (in_block.length < 8 * call.numWords)) = false := by
  rw [List.any_eq_false]
  intro block member
  have full := whole.full block member
  have words := Nat.mul_div_le call.blockSize 8
  have long : 8 * call.numWords ≤ block.length := words.trans full
  simp only [decide_eq_true_eq, not_lt]
  exact long

theorem coupled_muladd_arr_native_eq (few : call.knownCount ≤ 65536) (eq : ℕ) (out : Words) :
    call.coupled_muladd_arr_native eq out =
      .ok fun w => if w < call.numWords then out w + call.knownSum eq w else out w := by
  rw [coupled_muladd_arr_native, if_neg (by omega), none_short whole, if_neg (by simp)]
  congr 1
  funext w
  rw [gf64_region_coupled_muladd_arr_apply]
  rfl

omit whole in
/-- A coupled kernel that subtracts from its row makes the loop subtract from all rows. -/
theorem coupledLoop_eq (coupledFn : ℕ → Words → Except RhsError Words)
    (subtracts : ∀ eq out, coupledFn eq out =
      .ok fun w => if w < call.numWords then out w + call.knownSum eq w else out w)
    (rhs : ℕ → Words) : call.coupledLoop coupledFn rhs = .ok (call.subtracted rhs) := by
  rw [coupledLoop, foldlM_ok _ fun (rhs : ℕ → Words) eq => Function.update rhs eq fun w =>
    if w < call.numWords then rhs eq w + call.knownSum eq w else rhs eq w]
  · rw [foldl_update_range fun eq (row : Words) w =>
      if w < call.numWords then row w + call.knownSum eq w else row w]
    congr 1
    funext eq w
    simp only [subtracted]
    by_cases row : eq < call.n
    · simp only [row, true_and, if_true]
    · simp only [row, false_and, if_false]
  · intro eq _ state
    rw [subtracts]
    rfl

/-- A product buffer holds the product of one input. -/
theorem mulArrFn_eq (host : RhsHost) {ai : ℕ} (member : call.known ai ∈ call.knownBuffers)
    (eq : ℕ) :
    call.mulArrFn host (call.known ai) (call.cauchyCoeff eq ai) = .ok (call.product ai eq) := by
  rw [mulArrFn]
  split
  · have full := whole.full _ member
    have words := Nat.div_le_div_right (c := 8) full
    rw [mul_arr_native, if_neg]
    · rfl
    · simp only [numWords]
      omega
  · exact mul_arr_js_eq whole 0 member _

theorem legacyLoop_eq (host : RhsHost) (rhs : ℕ → Words) :
    call.legacyLoop host rhs = .ok (call.subtracted rhs) := by
  have each (ai : ℕ) (inside : ai ∈ List.range call.knownCount) (state : ℕ → Words) :
      (List.range call.n).foldlM
          (fun rhs eq2 => do
            let tmp ← call.mulArrFn host (call.known ai) (call.cauchyCoeff eq2 ai)
            return Function.update rhs eq2 (rhs eq2 + tmp)) state =
        .ok fun eq => if eq < call.n then state eq + call.product ai eq else state eq := by
    rw [foldlM_ok _ fun (rhs : ℕ → Words) eq => Function.update rhs eq (rhs eq + call.product ai eq)]
    · rw [foldl_update_range fun eq (row : Words) => row + call.product ai eq]
    · intro eq _ state
      rw [mulArrFn_eq whole host (known_mem (List.mem_range.mp inside))]
      rfl
  rw [legacyLoop, foldlM_ok _ _ _ _ each, foldl_add_within]
  congr 1
  funext eq w
  simp only [subtracted]
  by_cases row : eq < call.n
  · simp only [row, true_and, if_true, Pi.add_apply, Finset.sum_apply, product]
    by_cases word : w < call.numWords
    · simp only [word, if_true]
      rfl
    · simp only [word, if_false, Finset.sum_const_zero, add_zero]
  · simp only [row, false_and, if_false]

theorem fallback_eq (host : RhsHost) (rhs : ℕ → Words) :
    call.fallback host rhs = .ok (call.subtracted rhs) := by
  rw [fallback]
  cases selected : call.selectCoupledMuladd host with
  | none => exact legacyLoop_eq whole host rhs
  | some kernel =>
    cases kernel with
    | js => exact coupledLoop_eq _ (coupled_muladd_arr_js_eq whole) rhs
    | native =>
      have few : call.knownCount ≤ 65536 := by
        simp only [selectCoupledMuladd] at selected
        split at selected
        · cases selected
        · split at selected
          case isTrue native =>
            simp only [Bool.and_eq_true, decide_eq_true_eq] at native
            exact native.1.1.2
          case isFalse => cases selected
      exact coupledLoop_eq _ (coupled_muladd_arr_native_eq whole few) rhs

omit whole in
theorem two_d_muladd_arr_native_eq (fails : Bool) (rhs : ℕ → Words) :
    call.two_d_muladd_arr_native fails rhs = (rhs, false) ∨
      call.two_d_muladd_arr_native fails rhs = (call.subtracted rhs, true) := by
  simp only [two_d_muladd_arr_native]
  split
  · exact Or.inl rfl
  · apply Or.inr
    congr 1
    funext eq w
    rw [gf64_region_2d_muladd_arr_apply]
    simp only [subtracted, and_comm, knownSum]
    split
    · congr 1
      apply Finset.sum_congr rfl
      intro g member
      have inside := Finset.mem_range.mp member
      have quotient : (eq * call.knownCount + g) / call.knownCount = eq := by
        rw [Nat.mul_comm, Nat.mul_add_div (by omega), Nat.div_eq_of_lt inside, Nat.add_zero]
      have remainder : (eq * call.knownCount + g) % call.knownCount = g := by
        rw [Nat.mul_comm, Nat.mul_add_mod, Nat.mod_eq_of_lt inside]
      rw [quotient, remainder]
    · rfl

/-- On every path the known blocks are subtracted once. A path that is left has not changed the
rows. -/
theorem buildRhs_eq (host : RhsHost) (rhs : ℕ → Words) :
    call.buildRhs host rhs = .ok (call.subtracted rhs) := by
  rw [buildRhs]
  split
  case isTrue none =>
    congr 1
    funext eq w
    simp only [subtracted, knownSum, none, Finset.range_zero, Finset.sum_empty, add_zero, ite_self]
  case isFalse =>
    split
    · dsimp only
      rcases two_d_muladd_arr_native_eq host.twoDFails rhs with left | done
      · rw [left]
        exact fallback_eq whole host rhs
      · rw [done]
        rfl
    · exact fallback_eq whole host rhs

end WholeBlocks

/-! ## Blocks that are not whole -/

/-- No binding, and the coupled kernels are switched off. -/
def legacyHost : RhsHost where
  Gf64Encoder := false
  two_d_muladd_arr := false
  twoDFails := false
  coupled_muladd_arr := false
  coupledFails := false
  mul_arr := false
  coupledRhs := false

variable {call}

/-- The product loop of JavaScript reaches a word that is not there. -/
theorem mul_arr_js_error {block : Buffer} {w : ℕ} (loop : w < call.loopWords)
    (outside : block.length < 8 * w + 8 ∨ call.blockSize < 8 * w + 8) (out : Words) (coeff : Gf64) :
    ∃ error, call.mul_arr_js out block coeff = .error error := by
  apply foldlM_error _ (List.mem_range.mpr loop)
  intro state
  simp only [readWord]
  split
  case isTrue read =>
    refine ⟨.rangeError, if_neg ?_⟩
    omega
  case isFalse => exact ⟨.rangeError, rfl⟩

/-- A block size with a rest, or a short block, gives a word that is not there. -/
theorem exists_outside (some : 0 < call.knownCount) (broken : ¬ call.Whole) :
    ∃ ai < call.knownCount, ∃ w < call.loopWords,
      (call.known ai).length < 8 * w + 8 ∨ call.blockSize < 8 * w + 8 := by
  by_cases words : 8 ∣ call.blockSize
  · have short : ∃ block ∈ call.knownBuffers, block.length < call.blockSize := by
      by_contra all
      apply broken
      constructor
      · exact words
      · intro block member
        by_contra less
        exact all ⟨block, member, not_le.mp less⟩
    obtain ⟨block, member, less⟩ := short
    obtain ⟨ai, inside, found⟩ := List.mem_iff_getElem.mp member
    refine ⟨ai, inside, call.blockSize / 8 - 1, ?_, Or.inl ?_⟩
    · simp only [loopWords]
      omega
    · rw [known, List.getD_eq_getElem _ _ inside, found]
      omega
  · refine ⟨0, some, call.blockSize / 8, ?_, Or.inr ?_⟩
    · simp only [loopWords]
      omega
    · omega

theorem legacyHost_error (equations : 0 < call.n) (some : 0 < call.knownCount)
    (broken : ¬ call.Whole) (rhs : ℕ → Words) :
    ∃ error, call.buildRhs legacyHost rhs = .error error := by
  obtain ⟨ai, inside, w, loop, outside⟩ := exists_outside some broken
  have path : call.buildRhs legacyHost rhs = call.legacyLoop legacyHost rhs := by
    rw [buildRhs, if_neg some.ne']
    rfl
  rw [path]
  apply foldlM_error _ (List.mem_range.mpr inside)
  intro state
  apply foldlM_error _ (List.mem_range.mpr equations)
  intro row
  obtain ⟨error, failed⟩ := mul_arr_js_error loop outside 0 (call.cauchyCoeff 0 ai)
  refine ⟨error, ?_⟩
  change (call.mul_arr_js 0 (call.known ai) (call.cauchyCoeff 0 ai) >>= _) = _
  rw [failed]
  rfl

/-- Without equations there is nothing to compute. -/
theorem buildRhs_none (none : call.n = 0) (host : RhsHost) (rhs : ℕ → Words) :
    ∃ last, call.buildRhs host rhs = .ok last := by
  have left : ∃ last, call.fallback host rhs = .ok last := by
    rw [fallback]
    cases call.selectCoupledMuladd host with
    | none =>
      refine ⟨_, foldlM_ok _ (fun rhs _ => rhs) _ _ ?_⟩
      intro ai _ state
      rw [none]
      rfl
    | some kernel =>
      cases kernel with
      | native =>
        simp only [coupledLoop, none]
        exact ⟨rhs, rfl⟩
      | js =>
        simp only [coupledLoop, none]
        exact ⟨rhs, rfl⟩
  rw [buildRhs]
  split
  · exact ⟨rhs, rfl⟩
  · split
    · dsimp only
      rcases two_d_muladd_arr_native_eq host.twoDFails rhs with failed | done
      · rw [failed]
        exact left
      · rw [done]
        exact ⟨_, rfl⟩
    · exact left

variable (call)

/-- In every environment the computation returns, and each row is the recovery block with the
combination of the known blocks added. -/
def Agrees (recovery : ℕ → Buffer) : Prop :=
  ∀ host, ∃ last, call.buildRhs host (fun eq => wordAt (recovery eq)) = .ok last ∧
    ∀ eq < call.n, ∀ w, 8 * w < call.blockSize →
      last eq w = wordAt (recovery eq) w +
        ∑ g ∈ Finset.range call.knownCount, wordAt (call.known g) w * call.cauchyCoeff eq g

/-- All paths agree on the right-hand side exactly when the blocks are whole, or nothing is added. A
short block is refused by the kernels that check it, and the coupled one reads behind it. -/
theorem agrees_iff (recovery : ℕ → Buffer) :
    call.Agrees recovery ↔
      call.n = 0 ∨ call.knownBuffers = [] ∨
        8 ∣ call.blockSize ∧ ∀ block ∈ call.knownBuffers, call.blockSize ≤ block.length := by
  constructor
  case mp =>
    intro agrees
    by_cases equations : call.n = 0
    · exact Or.inl equations
    by_cases none : call.knownBuffers = []
    · exact Or.inr (Or.inl none)
    by_contra broken
    obtain ⟨last, returned, -⟩ := agrees legacyHost
    obtain ⟨error, failed⟩ := legacyHost_error (Nat.pos_of_ne_zero equations)
      (List.length_pos_of_ne_nil none)
      (fun whole => broken (Or.inr (Or.inr ⟨whole.words, whole.full⟩)))
      fun eq => wordAt (recovery eq)
    rw [returned] at failed
    cases failed
  case mpr =>
    intro condition host
    rcases condition with none | none | ⟨words, full⟩
    · obtain ⟨last, returned⟩ := buildRhs_none none host fun eq => wordAt (recovery eq)
      refine ⟨last, returned, ?_⟩
      intro eq row
      omega
    · have zero : call.knownCount = 0 := by rw [knownCount, none, List.length_nil]
      refine ⟨_, if_pos zero, ?_⟩
      intro eq row w inside
      rw [zero, Finset.range_zero, Finset.sum_empty, add_zero]
    · refine ⟨_, buildRhs_eq ⟨words, full⟩ host _, ?_⟩
      intro eq row w inside
      apply if_pos
      constructor
      · exact row
      · simp only [numWords]
        omega

/-- A block of 16 bytes of which a truncated file has 8. -/
def shortRead : RhsCall where
  n := 1
  blockSize := 16
  knownBuffers := [List.replicate 8 0]
  cauchyCoeff := fun _ _ => 1

/-- The binding with all kernels. -/
def nativeHost : RhsHost where
  Gf64Encoder := true
  two_d_muladd_arr := true
  twoDFails := false
  coupled_muladd_arr := true
  coupledFails := false
  mul_arr := true
  coupledRhs := true

/-- The two-dimensional kernel refuses the short block, and the coupled kernel reads behind it. -/
theorem shortRead_outOfBounds :
    shortRead.buildRhs nativeHost (fun _ => wordAt (List.replicate 16 0)) = .error .outOfBounds ∧
      ¬ shortRead.Agrees fun _ => List.replicate 16 0 := by
  have behind : shortRead.buildRhs nativeHost (fun _ => wordAt (List.replicate 16 0)) =
      .error .outOfBounds := rfl
  constructor
  · exact behind
  · intro agrees
    obtain ⟨last, returned, -⟩ := agrees nativeHost
    rw [behind] at returned
    cases returned

end RhsCall

end Par3
