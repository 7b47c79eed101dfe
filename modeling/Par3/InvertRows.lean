import Par3.GfmatInv
import Par3.Foundations.PivotExchange

/-!
# Rows of a matrix that is being inverted

What the kernels do to a row is the same in every stripe. Every row of the matrix is, at any time,
the row of the matrix after some number of exchanges, which is the level of the row. A group of rows
that is scaled goes up to the level behind the group, or one of its pivots is zero.
-/
namespace Par3

open BinaryField Word Interleaving PivotExchange

namespace Galois16RecMatrix

/-- Every row has a word for each input. -/
structure Shaped (matrix : Galois16RecMatrix) : Prop where
  words_pos : 0 < matrix.stripeWords
  wide : matrix.validCount + matrix.numRec ≤ matrix.numStripes * matrix.stripeWords

variable {matrix : Galois16RecMatrix} (shaped : matrix.Shaped)

section Cells

include shaped

theorem cell_quotient (row col : ℕ) :
    matrix.cell row col / matrix.stripeWords = col / matrix.stripeWords * matrix.numRec + row := by
  rw [cell, MAT_ROW, Nat.mul_comm _ matrix.stripeWords, Nat.mul_add_div shaped.words_pos,
    Nat.div_eq_of_lt (Nat.mod_lt _ shaped.words_pos), Nat.add_zero]

omit shaped in
theorem cell_remainder (row col : ℕ) :
    matrix.cell row col % matrix.stripeWords = col % matrix.stripeWords := by
  rw [cell, MAT_ROW, Nat.mul_add_mod_self_right, Nat.mod_mod]

/-- A word of the matrix has one place. -/
theorem cell_eq_iff {row other col column : ℕ} (inside : row < matrix.numRec)
    (otherInside : other < matrix.numRec) :
    matrix.cell row col = matrix.cell other column ↔ row = other ∧ col = column := by
  constructor
  · intro same
    have quotient := congrArg (· / matrix.stripeWords) same
    have remainder := congrArg (· % matrix.stripeWords) same
    simp only [cell_quotient shaped, cell_remainder] at quotient remainder
    have rows := congrArg (· % matrix.numRec) quotient
    have stripes := congrArg (· / matrix.numRec) quotient
    have pos : 0 < matrix.numRec := Nat.zero_lt_of_lt inside
    simp only [Nat.mul_add_mod_self_right, Nat.mod_eq_of_lt inside, Nat.mod_eq_of_lt otherInside]
      at rows
    simp only [Nat.mul_comm _ matrix.numRec, Nat.mul_add_div pos, Nat.div_eq_of_lt inside,
      Nat.div_eq_of_lt otherInside, Nat.add_zero] at stripes
    refine ⟨rows, ?_⟩
    rw [← Nat.div_add_mod col matrix.stripeWords, stripes, remainder, Nat.div_add_mod]
  · rintro ⟨rfl, rfl⟩
    rfl

/-- The words of a row of a stripe. -/
theorem cell_region {row target stripe col : ℕ} (inside : row < matrix.numRec)
    (targetInside : target < matrix.numRec) :
    (matrix.MAT_ROW stripe target ≤ matrix.cell row col ∧
      matrix.cell row col < matrix.MAT_ROW stripe target + matrix.stripeWords) ↔
      row = target ∧ col / matrix.stripeWords = stripe := by
  have pos := shaped.words_pos
  have quotient := cell_quotient shaped row col
  have range : (matrix.MAT_ROW stripe target ≤ matrix.cell row col ∧
      matrix.cell row col < matrix.MAT_ROW stripe target + matrix.stripeWords) ↔
        matrix.cell row col / matrix.stripeWords = stripe * matrix.numRec + target := by
    rw [MAT_ROW, Nat.div_eq_iff pos]
    constructor
    · rintro ⟨lower, upper⟩
      omega
    · rintro ⟨lower, upper⟩
      omega
  rw [range, quotient]
  constructor
  · intro same
    have rows := congrArg (· % matrix.numRec) same
    have stripes := congrArg (· / matrix.numRec) same
    have rowsPositive : 0 < matrix.numRec := Nat.zero_lt_of_lt inside
    simp only [Nat.mul_add_mod_self_right, Nat.mod_eq_of_lt inside, Nat.mod_eq_of_lt targetInside]
      at rows
    simp only [Nat.mul_comm _ matrix.numRec, Nat.mul_add_div rowsPositive, Nat.div_eq_of_lt inside,
      Nat.div_eq_of_lt targetInside, Nat.add_zero] at stripes
    exact ⟨rows, stripes⟩
  · rintro ⟨rfl, rfl⟩
    rfl

omit shaped in
/-- The same word of another row. -/
theorem cell_shift {row stripe col : ℕ} (other : ℕ) (here : col / matrix.stripeWords = stripe) :
    matrix.MAT_ROW stripe other + (matrix.cell row col - matrix.MAT_ROW stripe row) =
      matrix.cell other col := by
  rw [cell, cell, here, Nat.add_sub_cancel_left]

theorem stripe_lt {col : ℕ} (known : col < matrix.validCount + matrix.numRec) :
    col / matrix.stripeWords < matrix.numStripes := by
  rw [Nat.div_lt_iff_lt_mul shaped.words_pos]
  exact lt_of_lt_of_le known shaped.wide

/-! ## Kernels -/

theorem mul_add_multi_cell (mat : RecWords) (call : MulAddCall) {row : ℕ}
    (inside : row < matrix.numRec) (targetInside : call.target < matrix.numRec) (col : ℕ) :
    matrix.mul_add_multi mat call (matrix.cell row col) = mat (matrix.cell row col) +
      if row = call.target ∧ col / matrix.stripeWords = call.stripe then
        ∑ index ∈ Finset.range call.count,
          call.coeffs index * mat (matrix.cell (call.source + index) col)
      else 0 := by
  rw [mul_add_multi, if_congr (cell_region shaped inside targetInside) rfl rfl]
  split
  · next here =>
    obtain ⟨rfl, here⟩ := here
    simp only [cell_shift _ here]
  · rw [add_zero]

/-- Calls whose targets are no sources add what each of them adds at the beginning. -/
theorem calls_cell (calls : List MulAddCall) (mat : RecWords)
    (targets : ∀ call ∈ calls, call.target < matrix.numRec)
    (sources : ∀ call ∈ calls, call.source + call.count ≤ matrix.numRec)
    (apart : ∀ call ∈ calls, ∀ other ∈ calls,
      call.target < other.source ∨ other.source + other.count ≤ call.target)
    {row : ℕ} (inside : row < matrix.numRec) (col : ℕ) :
    calls.foldl matrix.mul_add_multi mat (matrix.cell row col) = mat (matrix.cell row col) +
      (calls.map fun call =>
        if row = call.target ∧ col / matrix.stripeWords = call.stripe then
          ∑ index ∈ Finset.range call.count,
            call.coeffs index * mat (matrix.cell (call.source + index) col)
        else 0).sum := by
  induction calls generalizing mat with
  | nil => rw [List.foldl_nil, List.map_nil, List.sum_nil, add_zero]
  | cons first rest ih =>
    have member : first ∈ first :: rest := List.mem_cons_self
    rw [List.foldl_cons, ih _
        (fun call later => targets call (List.mem_cons_of_mem _ later))
        (fun call later => sources call (List.mem_cons_of_mem _ later))
        (fun call later other otherLater => apart call (List.mem_cons_of_mem _ later) other
          (List.mem_cons_of_mem _ otherLater)),
      mul_add_multi_cell shaped mat first inside (targets first member), List.map_cons,
      List.sum_cons, add_assoc]
    congr 2
    apply congrArg List.sum
    apply List.map_congr_left
    intro call later
    apply if_congr Iff.rfl _ rfl
    apply Finset.sum_congr rfl
    intro index below
    have short := Finset.mem_range.mp below
    have known := sources call (List.mem_cons_of_mem _ later)
    have other := apart first member call (List.mem_cons_of_mem _ later)
    rw [mul_add_multi_cell shaped mat first (by omega) (targets first member), if_neg, add_zero]
    rintro ⟨same, -⟩
    omega

/-- A row of all stripes. -/
theorem mulAddStripes_cell {target source count : ℕ} (coeffs : ℕ → Gf16) (mat : RecWords)
    (targetInside : target < matrix.numRec) (sourceInside : source + count ≤ matrix.numRec)
    (apart : target < source ∨ source + count ≤ target) {row col : ℕ} (inside : row < matrix.numRec)
    (known : col < matrix.validCount + matrix.numRec) :
    matrix.mulAddStripes target source count coeffs mat (matrix.cell row col) =
      mat (matrix.cell row col) +
        if row = target then ∑ index ∈ Finset.range count,
          coeffs index * mat (matrix.cell (source + index) col)
        else 0 := by
  have own := stripe_lt shaped known
  rw [mulAddStripes, calls_cell shaped _ _ _ _ _ inside]
  · congr 1
    rw [List.map_map]
    by_cases same : row = target
    · simp only [Function.comp_def, same, true_and, if_true]
      rw [← List.sum_toFinset _ List.nodup_range, List.toFinset_range, Finset.sum_ite_eq,
        if_pos (Finset.mem_range.mpr own)]
    · simp only [Function.comp_def, same, false_and, if_false, List.map_const', List.sum_replicate,
        smul_zero]
  · intro call member
    obtain ⟨stripe, -, rfl⟩ := List.mem_map.mp member
    exact targetInside
  · intro call member
    obtain ⟨stripe, -, rfl⟩ := List.mem_map.mp member
    exact sourceInside
  · intro call member other otherMember
    obtain ⟨stripe, -, rfl⟩ := List.mem_map.mp member
    obtain ⟨stripe, -, rfl⟩ := List.mem_map.mp otherMember
    exact apart

theorem mul_cell {target : ℕ} (factor : Gf16) (mat : RecWords) (targetInside : target < matrix.numRec)
    {row col : ℕ} (inside : row < matrix.numRec)
    (known : col < matrix.validCount + matrix.numRec) :
    (List.range matrix.numStripes).foldl (fun mat stripe => matrix.mul stripe target factor mat) mat
        (matrix.cell row col) =
      if row = target then mat (matrix.cell row col) * factor else mat (matrix.cell row col) := by
  have own := stripe_lt shaped known
  have written (count : ℕ) : (List.range count).foldl
      (fun mat stripe => matrix.mul stripe target factor mat) mat (matrix.cell row col) =
        if row = target ∧ col / matrix.stripeWords < count then
          mat (matrix.cell row col) * factor
        else mat (matrix.cell row col) := by
    induction count with
    | zero =>
      rw [if_neg fun found => Nat.not_lt_zero _ found.2]
      rfl
    | succ count ih =>
      rw [List.range_succ, List.foldl_append, List.foldl_cons, List.foldl_nil, mul,
        ih, if_congr (cell_region shaped inside targetInside) rfl rfl]
      by_cases here : row = target ∧ col / matrix.stripeWords = count
      · rw [if_pos here, if_neg (by omega), if_pos (by omega)]
      · rw [if_neg here]
        exact if_congr (by omega) rfl rfl
  rw [written]
  exact if_congr (by omega) rfl rfl

/-- Coefficients that are taken out leave zeros. -/
theorem takeCoeffs_cell {row : ℕ} (rowInside : row < matrix.numRec) (first base count : ℕ)
    (coeff : ℕ → Gf16) (mat : RecWords) {other : ℕ} (inside : other < matrix.numRec) (col : ℕ) :
    (matrix.takeCoeffs row first base count (coeff, mat)).2 (matrix.cell other col) =
      if other = row ∧ first ≤ col ∧ col < first + count then 0
      else mat (matrix.cell other col) := by
  induction count with
  | zero =>
    rw [if_neg (by omega)]
    rfl
  | succ count ih =>
    rw [takeCoeffs] at ih ⊢
    rw [List.range_succ, List.foldl_append, List.foldl_cons, List.foldl_nil]
    dsimp only
    rw [Function.update_apply, ih,
      if_congr (cell_eq_iff shaped inside rowInside) rfl rfl]
    by_cases here : other = row ∧ col = first + count
    · rw [if_pos here, if_pos (by omega)]
    · rw [if_neg here]
      exact if_congr (by omega) rfl rfl

theorem takeCoeffs_coeff {row : ℕ} (rowInside : row < matrix.numRec) (first base count : ℕ)
    (coeff : ℕ → Gf16) (mat : RecWords) (index : ℕ) :
    (matrix.takeCoeffs row first base count (coeff, mat)).1 index =
      if base ≤ index ∧ index < base + count then mat (matrix.cell row (first + (index - base)))
      else coeff index := by
  induction count with
  | zero =>
    rw [if_neg (by omega)]
    rfl
  | succ count ih =>
    have before := takeCoeffs_cell shaped rowInside first base count coeff mat rowInside
      (first + count)
    rw [if_neg (by omega)] at before
    rw [takeCoeffs] at ih before ⊢
    rw [List.range_succ, List.foldl_append, List.foldl_cons, List.foldl_nil]
    dsimp only
    rw [Function.update_apply, ih, before]
    by_cases here : index = base + count
    · rw [if_pos here, if_pos (by omega), here, Nat.add_sub_cancel_left]
    · rw [if_neg here]
      exact if_congr (by omega) rfl rfl

end Cells

/-! ## Levels -/

variable (matrix) in
/-- Every row is that of the matrix after as many exchanges as its level says. -/
def Levelled (coefficients : ℕ → ℕ → Gf16) (level : ℕ → ℕ) (mat : RecWords) : Prop :=
  ∀ row < matrix.numRec, ∀ col < matrix.validCount + matrix.numRec,
    mat (matrix.cell row col) = exchanged coefficients matrix.validCount (level row) row col

variable {coefficients : ℕ → ℕ → Gf16} {level : ℕ → ℕ} {mat : RecWords}

section Levels

include shaped

/-- A row is scaled when its pivot is not zero. -/
theorem SCALE_ROW_cases {rec row : ℕ} (inside : rec + row < matrix.numRec)
    (levelled : matrix.Levelled coefficients level mat) (own : level (rec + row) = rec + row) :
    (pivot coefficients matrix.validCount (rec + row) = 0 ∧
        ∃ left, matrix.SCALE_ROW rec row mat = .error (row, left)) ∨
      (pivot coefficients matrix.validCount (rec + row) ≠ 0 ∧
        ∃ next, matrix.SCALE_ROW rec row mat = .ok next ∧
          matrix.Levelled coefficients (Function.update level (rec + row) (rec + row + 1)) next) := by
  have column : matrix.validCount + rec + row < matrix.validCount + matrix.numRec := by omega
  have tmpCoeff : mat (matrix.cell (rec + row) (matrix.validCount + rec + row)) =
      pivot coefficients matrix.validCount (rec + row) := by
    rw [levelled _ inside _ column, own, pivot, Nat.add_assoc]
  rw [SCALE_ROW, tmpCoeff]
  by_cases zero : pivot coefficients matrix.validCount (rec + row) = 0
  · rw [if_pos zero]
    exact .inl ⟨zero, _, rfl⟩
  · rw [if_neg zero]
    refine .inr ⟨zero, ?_⟩
    -- the row after the pivot is replaced, times its reciprocal
    have scaled (col : ℕ) (known : col < matrix.validCount + matrix.numRec) :
        Function.update mat (matrix.cell (rec + row) (matrix.validCount + rec + row)) 1
            (matrix.cell (rec + row) col) *
              (pivot coefficients matrix.validCount (rec + row))⁻¹ =
          exchanged coefficients matrix.validCount (rec + row + 1) (rec + row) col := by
      rw [Function.update_apply, if_congr (cell_eq_iff shaped inside inside) rfl rfl, exchanged_own,
        levelled _ inside _ known, own]
      simp only [true_and, Nat.add_assoc]
    have others (other : ℕ) (otherInside : other < matrix.numRec) (apart : other ≠ rec + row)
        (col : ℕ) : Function.update mat
            (matrix.cell (rec + row) (matrix.validCount + rec + row)) 1 (matrix.cell other col) =
          mat (matrix.cell other col) := by
      rw [Function.update_apply, if_neg]
      intro same
      exact apart ((cell_eq_iff shaped otherInside inside).mp same).1
    by_cases one : pivot coefficients matrix.validCount (rec + row) = 1
    · rw [if_neg (not_not.mpr one)]
      refine ⟨_, rfl, ?_⟩
      intro other otherInside col known
      by_cases same : other = rec + row
      · subst same
        rw [Function.update_self, ← scaled col known, one, inv_one, mul_one]
      · rw [others other otherInside same, Function.update_of_ne same]
        exact levelled other otherInside col known
    · rw [if_pos one]
      refine ⟨_, rfl, ?_⟩
      intro other otherInside col known
      rw [mul_cell shaped _ _ inside otherInside known, gf16_recip_eq zero]
      by_cases same : other = rec + row
      · subst same
        rw [if_pos rfl, Function.update_self]
        exact scaled col known
      · rw [if_neg same, others other otherInside same, Function.update_of_ne same]
        exact levelled other otherInside col known

/-- A row is added up to the level of the source rows, from the level where they begin. -/
theorem MULADD_MULTI_ROW_levelled {rec rowDst srcOffs numRows : ℕ}
    (targetInside : rowDst < matrix.numRec) (sourceInside : rec + srcOffs + numRows ≤ matrix.numRec)
    (levelled : matrix.Levelled coefficients level mat)
    (apart : rowDst < rec + srcOffs ∨ rec + srcOffs + numRows ≤ rowDst)
    (sources : ∀ index < numRows, level (rec + srcOffs + index) = rec + srcOffs + numRows)
    (target : level rowDst = rec + srcOffs) :
    matrix.Levelled coefficients (Function.update level rowDst (rec + srcOffs + numRows))
      (matrix.MULADD_MULTI_ROW rec rowDst srcOffs numRows mat) := by
  intro row inside col known
  rw [MULADD_MULTI_ROW]
  dsimp only
  rw [mulAddStripes_cell shaped _ _ targetInside sourceInside apart inside known,
    takeCoeffs_cell shaped targetInside _ _ _ _ _ inside, Function.update_apply]
  by_cases same : row = rowDst
  · subst same
    rw [if_pos rfl, if_pos rfl, exchanged_block numRows apart, levelled row inside col known, target]
    congr 1
    · exact if_congr (by omega) rfl rfl
    · apply Finset.sum_congr rfl
      intro index below
      have short := Finset.mem_range.mp below
      rw [takeCoeffs_coeff shaped targetInside, if_pos (by omega),
        takeCoeffs_cell shaped targetInside _ _ _ _ _ (by omega), if_neg (by omega),
        levelled _ (by omega) _ known, sources index short, levelled row inside _ (by omega), target,
        Nat.sub_zero]
      simp only [Nat.add_assoc]
  · rw [if_neg same, if_neg same, add_zero, if_neg (by omega)]
    exact levelled row inside col known

theorem MULADD_ROW_levelled {rec rowDst rowSrc : ℕ} (targetInside : rowDst < matrix.numRec)
    (sourceInside : rec + rowSrc < matrix.numRec)
    (levelled : matrix.Levelled coefficients level mat) (apart : rowDst ≠ rec + rowSrc)
    (source : level (rec + rowSrc) = rec + rowSrc + 1) (target : level rowDst = rec + rowSrc) :
    matrix.Levelled coefficients (Function.update level rowDst (rec + rowSrc + 1))
      (matrix.MULADD_ROW rec rowDst rowSrc mat) := by
  have column : matrix.validCount + rec + rowSrc < matrix.validCount + matrix.numRec := by omega
  have updated {other : ℕ} (otherInside : other < matrix.numRec) (col : ℕ) :
      Function.update mat (matrix.cell rowDst (matrix.validCount + rec + rowSrc)) 0
          (matrix.cell other col) =
        if other = rowDst ∧ col = matrix.validCount + rec + rowSrc then 0
        else mat (matrix.cell other col) := by
    rw [Function.update_apply]
    exact if_congr (cell_eq_iff shaped otherInside targetInside) rfl rfl
  intro row inside col known
  have untouched : Function.update mat (matrix.cell rowDst (matrix.validCount + rec + rowSrc)) 0
      (matrix.cell (rec + rowSrc) col) = mat (matrix.cell (rec + rowSrc) col) := by
    rw [updated sourceInside, if_neg fun found => apart found.1.symm]
  -- a coefficient of zero adds nothing
  have value : matrix.MULADD_ROW rec rowDst rowSrc mat (matrix.cell row col) =
      (if row = rowDst ∧ col = matrix.validCount + rec + rowSrc then 0
        else mat (matrix.cell row col)) +
        if row = rowDst then mat (matrix.cell rowDst (matrix.validCount + rec + rowSrc)) *
          mat (matrix.cell (rec + rowSrc) col) else 0 := by
    rw [MULADD_ROW, ← updated inside]
    by_cases zero : mat (matrix.cell rowDst (matrix.validCount + rec + rowSrc)) = 0
    · rw [if_neg (not_not.mpr zero), zero, zero_mul, ite_self, add_zero]
    · rw [if_pos zero, mulAddStripes_cell shaped _ _ targetInside sourceInside (by omega) inside known,
        Finset.sum_range_one, Nat.add_zero, untouched]
  rw [value, Function.update_apply]
  by_cases same : row = rowDst
  · subst same
    rw [if_pos rfl, if_pos rfl, exchanged_other apart, levelled row inside col known,
      levelled row inside _ column, levelled _ sourceInside _ known, source, target, Nat.add_assoc]
    simp only [true_and]
  · rw [if_neg same, if_neg same, if_neg (by omega), add_zero]
    exact levelled row inside col known

end Levels

/-! ## Groups -/

/-- Levels inside a group of rows, and those of the other rows. -/
def within (rec rows : ℕ) (inner level : ℕ → ℕ) (row : ℕ) : ℕ :=
  if rec ≤ row ∧ row < rec + rows then inner (row - rec) else level row

theorem within_at {rec rows row : ℕ} (inner level : ℕ → ℕ) (inside : row < rows) :
    within rec rows inner level (rec + row) = inner row := by
  rw [within, if_pos (by omega), Nat.add_sub_cancel_left]

theorem within_congr {rec rows : ℕ} {inner other : ℕ → ℕ}
    (same : ∀ row < rows, inner row = other row) :
    within rec rows inner level = within rec rows other level := by
  funext row
  simp only [within]
  split
  · exact same _ (by omega)
  · rfl

theorem within_update {rec rows row : ℕ} (inner level : ℕ → ℕ) (inside : row < rows) (value : ℕ) :
    Function.update (within rec rows inner level) (rec + row) value =
      within rec rows (Function.update inner row value) level := by
  funext other
  simp only [within, Function.update_apply]
  by_cases here : other = rec + row
  · rw [if_pos here, if_pos (by omega), if_pos (by omega)]
  · rw [if_neg here]
    by_cases member : rec ≤ other ∧ other < rec + rows
    · rw [if_pos member, if_pos member, if_neg (by omega)]
    · rw [if_neg member, if_neg member]

/-- The outcome of scaling some rows of a group: an error is about the first pivot that is zero. -/
def Scales (matrix : Galois16RecMatrix) (coefficients : ℕ → ℕ → Gf16) (rec before after : ℕ)
    (post : RecWords → Prop) : Except (ℕ × RecWords) RecWords → Prop
  | .ok next =>
    (∀ row, before ≤ row → row < after → pivot coefficients matrix.validCount (rec + row) ≠ 0) ∧
      post next
  | .error (row, _) =>
    (before ≤ row ∧ row < after) ∧ pivot coefficients matrix.validCount (rec + row) = 0 ∧
      ∀ earlier, before ≤ earlier → earlier < row →
        pivot coefficients matrix.validCount (rec + earlier) ≠ 0

namespace Scales

variable {rec before middle after : ℕ} {post later : RecWords → Prop}

theorem ok (holds : post mat) : Scales matrix coefficients rec before before post (.ok mat) :=
  ⟨fun _ lower upper => absurd upper (Nat.not_lt.mpr lower), holds⟩

theorem imp {result : Except (ℕ × RecWords) RecWords}
    (scales : Scales matrix coefficients rec before after post result)
    (weaker : ∀ mat, post mat → later mat) :
    Scales matrix coefficients rec before after later result := by
  cases result with
  | error failed => exact scales
  | ok mat => exact ⟨scales.1, weaker mat scales.2⟩

theorem bind {result : Except (ℕ × RecWords) RecWords}
    {next : RecWords → Except (ℕ × RecWords) RecWords}
    (first : Scales matrix coefficients rec before middle post result) (lower : before ≤ middle)
    (upper : middle ≤ after)
    (second : ∀ mat, post mat → Scales matrix coefficients rec middle after later (next mat)) :
    Scales matrix coefficients rec before after later (result >>= next) := by
  cases result with
  | error failed =>
    obtain ⟨row, left⟩ := failed
    obtain ⟨range, zero, nonzero⟩ := first
    exact ⟨⟨range.1, lt_of_lt_of_le range.2 upper⟩, zero, nonzero⟩
  | ok mat =>
    obtain ⟨nonzero, holds⟩ := first
    have rest := second mat holds
    change Scales matrix coefficients rec before after later (next mat)
    cases result : next mat with
    | error failed =>
      obtain ⟨row, left⟩ := failed
      rw [result] at rest
      obtain ⟨range, zero, others⟩ := rest
      refine ⟨⟨lower.trans range.1, range.2⟩, zero, ?_⟩
      intro earlier above below
      by_cases inFirst : earlier < middle
      · exact nonzero earlier above inFirst
      · exact others earlier (Nat.not_lt.mp inFirst) below
    | ok last =>
      rw [result] at rest
      obtain ⟨others, reached⟩ := rest
      refine ⟨?_, reached⟩
      intro row above below
      by_cases inFirst : row < middle
      · exact nonzero row above inFirst
      · exact others row (Nat.not_lt.mp inFirst) below

end Scales

section Groups

variable {rec rows : ℕ} {inner : ℕ → ℕ}

include shaped

theorem scale_step {row : ℕ} (fits : rec + rows ≤ matrix.numRec)
    (levelled : matrix.Levelled coefficients (within rec rows inner level) mat)
    (inside : row < rows) (own : inner row = rec + row) :
    Scales matrix coefficients rec row (row + 1) (matrix.Levelled coefficients
      (within rec rows (Function.update inner row (rec + row + 1)) level))
        (matrix.SCALE_ROW rec row mat) := by
  have here := @within_at rec rows row inner level inside
  obtain ⟨zero, left, failed⟩ | ⟨nonzero, next, scaled, reached⟩ :=
    SCALE_ROW_cases shaped (by omega) levelled (here.trans own)
  · rw [failed]
    refine ⟨⟨le_rfl, Nat.lt_succ_self row⟩, zero, ?_⟩
    intro earlier above below
    exact absurd below (Nat.not_lt.mpr above)
  · rw [scaled]
    constructor
    · intro other above below
      obtain rfl : other = row := by omega
      exact nonzero
    · rw [within_update inner level inside] at reached
      exact reached

theorem muladd_step (fits : rec + rows ≤ matrix.numRec)
    (levelled : matrix.Levelled coefficients (within rec rows inner level) mat) (target source : ℕ)
    (targetInside : target < rows) (sourceInside : source < rows) (apart : target ≠ source)
    (sourceLevel : inner source = rec + source + 1) (targetLevel : inner target = rec + source) :
    matrix.Levelled coefficients
      (within rec rows (Function.update inner target (rec + source + 1)) level)
        (matrix.MULADD_ROW rec (rec + target) source mat) := by
  rw [← within_update inner level targetInside]
  apply MULADD_ROW_levelled shaped (by omega) (by omega) levelled (by omega)
  · rw [within_at inner level sourceInside, sourceLevel]
  · rw [within_at inner level targetInside, targetLevel]

theorem muladd_multi_step (fits : rec + rows ≤ matrix.numRec)
    (levelled : matrix.Levelled coefficients (within rec rows inner level) mat)
    (target source count : ℕ) (targetInside : target < rows) (sourceInside : source + count ≤ rows)
    (apart : target < source ∨ source + count ≤ target)
    (sourceLevels : ∀ index < count, inner (source + index) = rec + source + count)
    (targetLevel : inner target = rec + source) :
    matrix.Levelled coefficients
      (within rec rows (Function.update inner target (rec + source + count)) level)
        (matrix.MULADD_MULTI_ROW rec (rec + target) source count mat) := by
  rw [← within_update inner level targetInside]
  apply MULADD_MULTI_ROW_levelled shaped (by omega) (by omega) levelled (by omega)
  · intro index below
    rw [Nat.add_assoc, within_at inner level (by omega), sourceLevels index below]
  · rw [within_at inner level targetInside, targetLevel]

omit shaped in
/-- The levels when the first rows of a group are through with each other. -/
theorem levels_of_steps {count : ℕ} (levelled : matrix.Levelled coefficients
    (within rec rows inner level) mat)
    (first : ∀ row < count, inner row = rec + count) (others : ∀ row, inner (row + count) = rec) :
    matrix.Levelled coefficients
      (within rec rows (fun row => if row < count then rec + count else rec) level) mat := by
  rw [within_congr] at levelled
  · exact levelled
  · intro row _
    split
    · next before => exact first row before
    · next behind =>
      have place := others (row - count)
      rw [Nat.sub_add_cancel (Nat.not_lt.mp behind)] at place
      exact place

/-- The first row is scaled alone. -/
theorem scaleFirst (fits : rec + rows ≤ matrix.numRec) (some : 1 ≤ rows)
    (levelled : matrix.Levelled coefficients (within rec rows (fun _ => rec) level) mat) :
    Scales matrix coefficients rec 0 1 (matrix.Levelled coefficients
      (within rec rows (fun row => if row < 1 then rec + 1 else rec) level))
      (matrix.SCALE_ROW rec 0 mat) := by
  refine (scale_step shaped fits levelled some rfl).imp ?_
  intro mat levelled
  refine levels_of_steps levelled ?_ fun _ => rfl
  intro row below
  interval_cases row
  rfl

theorem scaleSecond (fits : rec + rows ≤ matrix.numRec) (some : 2 ≤ rows)
    (levelled : matrix.Levelled coefficients
      (within rec rows (fun row => if row < 1 then rec + 1 else rec) level) mat) :
    Scales matrix coefficients rec 1 2 (matrix.Levelled coefficients
      (within rec rows (fun row => if row < 2 then rec + 2 else rec) level))
      (matrix.SCALE_ROW rec 1 (matrix.MULADD_ROW rec (rec + 1) 0 mat) >>= fun mat =>
        Except.ok (matrix.MULADD_ROW rec (rec + 0) 1 mat)) := by
  have levelled := muladd_step shaped fits levelled 1 0 (by omega) (by omega) (by decide) rfl rfl
  refine (scale_step shaped fits levelled (by omega) rfl).bind (by decide) le_rfl ?_
  intro mat levelled
  have levelled := muladd_step shaped fits levelled 0 1 (by omega) (by omega) (by decide) rfl rfl
  refine Scales.ok (levels_of_steps levelled ?_ fun _ => rfl)
  intro row below
  interval_cases row <;> rfl

theorem scaleThird (fits : rec + rows ≤ matrix.numRec) (some : 3 ≤ rows)
    (levelled : matrix.Levelled coefficients
      (within rec rows (fun row => if row < 2 then rec + 2 else rec) level) mat) :
    Scales matrix coefficients rec 2 3 (matrix.Levelled coefficients
      (within rec rows (fun row => if row < 3 then rec + 3 else rec) level))
      (matrix.SCALE_ROW rec 2 (matrix.MULADD_MULTI_ROW rec (rec + 2) 0 2 mat) >>= fun mat =>
        Except.ok (matrix.MULADD_ROW rec (rec + 1) 2 (matrix.MULADD_ROW rec (rec + 0) 2 mat))) := by
  have levelled := muladd_multi_step shaped fits levelled 2 0 2 (by omega) (by omega) (by decide)
    (by intro index below; interval_cases index <;> rfl) rfl
  refine (scale_step shaped fits levelled (by omega) rfl).bind (by decide) le_rfl ?_
  intro mat levelled
  have levelled := muladd_step shaped fits levelled 0 2 (by omega) (by omega) (by decide) rfl rfl
  have levelled := muladd_step shaped fits levelled 1 2 (by omega) (by omega) (by decide) rfl rfl
  refine Scales.ok (levels_of_steps levelled ?_ fun _ => rfl)
  intro row below
  interval_cases row <;> rfl

/-- Two rows are added to the two before them at once. -/
theorem scaleFourth (fits : rec + rows ≤ matrix.numRec) (some : 4 ≤ rows)
    (levelled : matrix.Levelled coefficients
      (within rec rows (fun row => if row < 2 then rec + 2 else rec) level) mat) :
    Scales matrix coefficients rec 2 4 (matrix.Levelled coefficients
      (within rec rows (fun row => if row < 4 then rec + 4 else rec) level))
      (matrix.SCALE_ROW rec 2 (matrix.MULADD_MULTI_ROW rec (rec + 2) 0 2 mat) >>= fun mat =>
        matrix.SCALE_ROW rec 3 (matrix.MULADD_ROW rec (rec + 3) 2
          (matrix.MULADD_MULTI_ROW rec (rec + 3) 0 2 mat)) >>= fun mat =>
            Except.ok (matrix.MULADD_MULTI_ROW rec (rec + 1) 2 2 (matrix.MULADD_MULTI_ROW rec (rec + 0)
              2 2 (matrix.MULADD_ROW rec (rec + 2) 3 mat)))) := by
  have levelled := muladd_multi_step shaped fits levelled 2 0 2 (by omega) (by omega) (by decide)
    (by intro index below; interval_cases index <;> rfl) rfl
  refine (scale_step shaped fits levelled (by omega) rfl).bind (by decide) (by decide) ?_
  intro mat levelled
  have levelled := muladd_multi_step shaped fits levelled 3 0 2 (by omega) (by omega) (by decide)
    (by intro index below; interval_cases index <;> rfl) rfl
  have levelled := muladd_step shaped fits levelled 3 2 (by omega) (by omega) (by decide) rfl rfl
  refine (scale_step shaped fits levelled (by omega) rfl).bind (by decide) le_rfl ?_
  intro mat levelled
  have levelled := muladd_step shaped fits levelled 2 3 (by omega) (by omega) (by decide) rfl rfl
  have levelled := muladd_multi_step shaped fits levelled 0 2 2 (by omega) (by omega) (by decide)
    (by intro index below; interval_cases index <;> rfl) rfl
  have levelled := muladd_multi_step shaped fits levelled 1 2 2 (by omega) (by omega) (by decide)
    (by intro index below; interval_cases index <;> rfl) rfl
  refine Scales.ok (levels_of_steps levelled ?_ fun _ => rfl)
  intro row below
  interval_cases row <;> rfl

theorem scaleFifth (fits : rec + rows ≤ matrix.numRec) (some : 5 ≤ rows)
    (levelled : matrix.Levelled coefficients
      (within rec rows (fun row => if row < 4 then rec + 4 else rec) level) mat) :
    Scales matrix coefficients rec 4 5 (matrix.Levelled coefficients
      (within rec rows (fun row => if row < 5 then rec + 5 else rec) level))
      (matrix.SCALE_ROW rec 4 (matrix.MULADD_MULTI_ROW rec (rec + 4) 0 4 mat) >>= fun mat =>
        Except.ok (matrix.MULADD_ROW rec (rec + 3) 4 ((List.range 3).foldl
          (fun mat r => matrix.MULADD_ROW rec (rec + r) 4 mat) mat))) := by
  have levelled := muladd_multi_step shaped fits levelled 4 0 4 (by omega) (by omega) (by decide)
    (by intro index below; interval_cases index <;> rfl) rfl
  refine (scale_step shaped fits levelled (by omega) rfl).bind (by decide) le_rfl ?_
  intro mat levelled
  have levelled := muladd_step shaped fits levelled 0 4 (by omega) (by omega) (by decide) rfl rfl
  have levelled := muladd_step shaped fits levelled 1 4 (by omega) (by omega) (by decide) rfl rfl
  have levelled := muladd_step shaped fits levelled 2 4 (by omega) (by omega) (by decide) rfl rfl
  have levelled := muladd_step shaped fits levelled 3 4 (by omega) (by omega) (by decide) rfl rfl
  refine Scales.ok (levels_of_steps levelled ?_ fun _ => rfl)
  intro row below
  interval_cases row <;> rfl

theorem scaleSixth (fits : rec + rows ≤ matrix.numRec) (some : 6 ≤ rows)
    (levelled : matrix.Levelled coefficients
      (within rec rows (fun row => if row < 4 then rec + 4 else rec) level) mat) :
    Scales matrix coefficients rec 4 6 (matrix.Levelled coefficients
      (within rec rows (fun row => if row < 6 then rec + 6 else rec) level))
      (matrix.SCALE_ROW rec 4 (matrix.MULADD_MULTI_ROW rec (rec + 4) 0 4 mat) >>= fun mat =>
        matrix.SCALE_ROW rec 5 (matrix.MULADD_ROW rec (rec + 5) 4
          (matrix.MULADD_MULTI_ROW rec (rec + 5) 0 4 mat)) >>= fun mat =>
            Except.ok (matrix.MULADD_MULTI_ROW rec (rec + 3) 4 2 ((List.range 3).foldl
              (fun mat r => matrix.MULADD_MULTI_ROW rec (rec + r) 4 2 mat)
                (matrix.MULADD_ROW rec (rec + 4) 5 mat)))) := by
  have levelled := muladd_multi_step shaped fits levelled 4 0 4 (by omega) (by omega) (by decide)
    (by intro index below; interval_cases index <;> rfl) rfl
  refine (scale_step shaped fits levelled (by omega) rfl).bind (by decide) (by decide) ?_
  intro mat levelled
  have levelled := muladd_multi_step shaped fits levelled 5 0 4 (by omega) (by omega) (by decide)
    (by intro index below; interval_cases index <;> rfl) rfl
  have levelled := muladd_step shaped fits levelled 5 4 (by omega) (by omega) (by decide) rfl rfl
  refine (scale_step shaped fits levelled (by omega) rfl).bind (by decide) le_rfl ?_
  intro mat levelled
  have levelled := muladd_step shaped fits levelled 4 5 (by omega) (by omega) (by decide) rfl rfl
  have sources : ∀ {inner : ℕ → ℕ}, inner 4 = rec + 6 → inner 5 = rec + 6 →
      ∀ index < 2, inner (4 + index) = rec + 4 + 2 := by
    intro inner fourth fifth index below
    interval_cases index
    · exact fourth
    · exact fifth
  have levelled := muladd_multi_step shaped fits levelled 0 4 2 (by omega) (by omega) (by decide)
    (sources rfl rfl) rfl
  have levelled := muladd_multi_step shaped fits levelled 1 4 2 (by omega) (by omega) (by decide)
    (sources rfl rfl) rfl
  have levelled := muladd_multi_step shaped fits levelled 2 4 2 (by omega) (by omega) (by decide)
    (sources rfl rfl) rfl
  have levelled := muladd_multi_step shaped fits levelled 3 4 2 (by omega) (by omega) (by decide)
    (sources rfl rfl) rfl
  refine Scales.ok (levels_of_steps levelled ?_ fun _ => rfl)
  intro row below
  interval_cases row <;> rfl

/-- A group of rows goes up to the level behind it. -/
theorem scaleRows_scales (fits : rec + rows ≤ matrix.numRec) (some : 1 ≤ rows) (few : rows ≤ 6)
    (levelled : matrix.Levelled coefficients (within rec rows (fun _ => rec) level) mat) :
    Scales matrix coefficients rec 0 rows
      (matrix.Levelled coefficients (within rec rows (fun _ => rec + rows) level))
      (matrix.scaleRows rows rec mat) := by
  have all (mat : RecWords) (reached : matrix.Levelled coefficients
      (within rec rows (fun row => if row < rows then rec + rows else rec) level) mat) :
      matrix.Levelled coefficients (within rec rows (fun _ => rec + rows) level) mat := by
    rw [within_congr] at reached
    · exact reached
    · intro row inside
      rw [if_pos inside]
  refine Scales.imp ?_ all
  have first := scaleFirst shaped fits some levelled
  interval_cases rows
  · exact first.bind (by decide) le_rfl fun mat levelled => Scales.ok levelled
  · refine first.bind (by decide) (by decide) fun mat levelled => ?_
    refine (scaleSecond shaped fits (by decide) levelled).bind (by decide) le_rfl ?_
    exact fun mat levelled => Scales.ok levelled
  · refine first.bind (by decide) (by decide) fun mat levelled => ?_
    refine (scaleSecond shaped fits (by decide) levelled).bind (by decide) (by decide) ?_
    intro mat levelled
    refine (scaleThird shaped fits (by decide) levelled).bind (by decide) le_rfl ?_
    exact fun mat levelled => Scales.ok levelled
  · refine first.bind (by decide) (by decide) fun mat levelled => ?_
    refine (scaleSecond shaped fits (by decide) levelled).bind (by decide) (by decide) ?_
    intro mat levelled
    refine (scaleFourth shaped fits (by decide) levelled).bind (by decide) le_rfl ?_
    exact fun mat levelled => Scales.ok levelled
  · refine first.bind (by decide) (by decide) fun mat levelled => ?_
    refine (scaleSecond shaped fits (by decide) levelled).bind (by decide) (by decide) ?_
    intro mat levelled
    refine (scaleFourth shaped fits (by decide) levelled).bind (by decide) (by decide) ?_
    exact fun mat levelled => scaleFifth shaped fits (by decide) levelled
  · refine first.bind (by decide) (by decide) fun mat levelled => ?_
    refine (scaleSecond shaped fits (by decide) levelled).bind (by decide) (by decide) ?_
    intro mat levelled
    refine (scaleFourth shaped fits (by decide) levelled).bind (by decide) (by decide) ?_
    exact fun mat levelled => scaleSixth shaped fits (by decide) levelled

end Groups

end Galois16RecMatrix

end Par3
