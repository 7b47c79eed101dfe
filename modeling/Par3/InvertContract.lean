import Par3.InvertRuns

/-!
# What an inversion gives

The matrix is built from the powers of the bases of the inputs, row by row or from the row before.
When an inversion succeeds, the missing inputs are the sums that its coefficients say, and neither
the coefficients nor the recovery slices that are kept depend on the method, the sizes of the groups
or the order in which workers happen to run.
-/
namespace Par3

open BinaryField Word Interleaving PivotExchange

namespace Galois16RecMatrix

/-! ## Columns -/

/-- The numbers of the inputs that are there, or of those that are missing. -/
def inputsWhere (valid : Bool) : List Bool → ℕ → List ℕ
  | [], _ => []
  | here :: rest, input =>
    if here = valid then input :: inputsWhere valid rest (input + 1)
    else inputsWhere valid rest (input + 1)

/-- The inputs in the order of their columns. -/
def columns (inputValid : List Bool) : List ℕ :=
  inputsWhere true inputValid 0 ++ inputsWhere false inputValid 0

theorem inputsWhere_length (valid : Bool) (inputValid : List Bool) (input : ℕ) :
    (inputsWhere valid inputValid input).length = inputValid.count valid := by
  induction inputValid generalizing input with
  | nil => rfl
  | cons here rest ih =>
    rw [inputsWhere, List.count_cons]
    by_cases same : here = valid
    · rw [if_pos same, List.length_cons, ih, if_pos (beq_iff_eq.mpr same)]
    · rw [if_neg same, ih, if_neg fun equal => same (beq_iff_eq.mp equal),
        Nat.add_zero]

theorem inputsWhere_perm (inputValid : List Bool) (input : ℕ) :
    (inputsWhere true inputValid input ++ inputsWhere false inputValid input).Perm
      (List.range' input inputValid.length) := by
  induction inputValid generalizing input with
  | nil => exact List.Perm.refl _
  | cons here rest ih =>
    rw [List.length_cons, List.range'_succ]
    cases here with
    | true => exact (ih (input + 1)).cons input
    | false => exact List.perm_middle.trans ((ih (input + 1)).cons input)

theorem columns_perm (inputValid : List Bool) :
    (columns inputValid).Perm (List.range inputValid.length) := by
  rw [List.range_eq_range']
  exact inputsWhere_perm inputValid 0

theorem columns_length (inputValid : List Bool) : (columns inputValid).length = inputValid.length :=
  (columns_perm inputValid).length_eq.trans List.length_range

/-- A column is that of an input. -/
theorem columns_lt {inputValid : List Bool} {col : ℕ} (known : col < inputValid.length) :
    (columns inputValid).getD col 0 < inputValid.length := by
  have short : col < (columns inputValid).length := (columns_length inputValid).symm ▸ known
  rw [List.getD_eq_getElem _ _ short, ← List.mem_range, ← (columns_perm inputValid).mem_iff]
  exact List.getElem_mem short

theorem mem_targetCols_iff (inputValid : List Bool) (start validCol missingCol input col : ℕ) :
    (input, col) ∈ targetCols inputValid start validCol missingCol ↔
      (validCol ≤ col ∧ (inputsWhere true inputValid start)[col - validCol]? = some input) ∨
        (missingCol ≤ col ∧ (inputsWhere false inputValid start)[col - missingCol]? = some input) := by
  induction inputValid generalizing start validCol missingCol with
  | nil => simp only [targetCols, inputsWhere, List.not_mem_nil, List.getElem?_nil, reduceCtorEq,
      and_false, or_false]
  | cons here rest ih =>
    have step (first : ℕ) (values : List ℕ) : (first ≤ col ∧
        (start :: values)[col - first]? = some input) ↔ (input = start ∧ col = first) ∨
          (first + 1 ≤ col ∧ values[col - (first + 1)]? = some input) := by
      by_cases same : col = first
      · subst same
        simp only [le_refl, Nat.sub_self, List.getElem?_cons_zero, Option.some.injEq, true_and, and_true,
          Nat.not_succ_le_self, false_and, or_false]
        exact eq_comm
      · by_cases more : first ≤ col
        · have next : col - first = (col - (first + 1)) + 1 := by omega
          rw [next, List.getElem?_cons_succ]
          simp only [same, and_false, false_or, more, true_and]
          exact (and_iff_right (by omega)).symm
        · simp only [same, more, false_and, and_false, false_or, false_iff, not_and]
          omega
    cases here with
    | true =>
      rw [targetCols, List.mem_cons, ih, Prod.mk.injEq]
      simp only [inputsWhere, if_true, reduceCtorEq, if_false]
      rw [step, or_assoc]
    | false =>
      rw [targetCols, List.mem_cons, ih, Prod.mk.injEq]
      simp only [inputsWhere, if_true, reduceCtorEq, if_false]
      rw [step]
      exact or_left_comm

/-- Every input has the column of its place. -/
theorem mem_targetCols (inputValid : List Bool) (input col : ℕ) :
    (input, col) ∈ targetCols inputValid 0 0 (inputValid.count true) ↔
      (columns inputValid)[col]? = some input := by
  have length := inputsWhere_length true inputValid 0
  rw [mem_targetCols_iff, columns, ← length, Nat.sub_zero]
  by_cases before : col < (inputsWhere true inputValid 0).length
  · rw [List.getElem?_append_left before]
    constructor
    · rintro (⟨-, found⟩ | ⟨behind, -⟩)
      · exact found
      · omega
    · exact fun found => .inl ⟨Nat.zero_le _, found⟩
  · rw [List.getElem?_append_right (Nat.not_lt.mp before), List.getElem?_eq_none (Nat.not_lt.mp before)]
    constructor
    · rintro (⟨-, found⟩ | ⟨-, found⟩)
      · cases found
      · exact found
    · exact fun found => .inr ⟨Nat.not_lt.mp before, found⟩

/-! ## Construction -/

/-- The coefficients of the matrix. -/
def coefficients (inputValid : List Bool) (recovery : List ℕ) (row col : ℕ) : Gf16 :=
  gfmat_coeff_from_log (gfmat_input_log ((columns inputValid).getD col 0)) (recovery.getD row 0)

/-- Writes leave the value that all of them have for a place. -/
theorem writes_at {A V : Type*} [DecidableEq A] (writes : List (A × V)) (memory : A → V) (place : A)
    (value : V) (agree : ∀ write ∈ writes, write.1 = place → write.2 = value)
    (written : (∃ write ∈ writes, write.1 = place) ∨ memory place = value) :
    writes.foldl (fun memory write => Function.update memory write.1 write.2) memory place = value := by
  induction writes generalizing memory with
  | nil =>
    obtain ⟨write, member, -⟩ | same := written
    · cases member
    · exact same
  | cons first rest ih =>
    rw [List.foldl_cons]
    apply ih _ fun write member => agree write (List.mem_cons_of_mem _ member)
    by_cases here : first.1 = place
    · right
      rw [← here, Function.update_self]
      exact agree first List.mem_cons_self here
    · obtain ⟨write, member, same⟩ | same := written
      · rw [List.mem_cons] at member
        obtain rfl | later := member
        · exact absurd same here
        · exact .inl ⟨write, later, same⟩
      · right
        rw [Function.update_of_ne (Ne.symm here)]
        exact same

/-- Inputs are in the groups once. -/
theorem mem_inputGroups (cols : List (ℕ × ℕ)) (col : ℕ × ℕ) :
    (∃ group ∈ inputGroups cols, col ∈ group) ↔ col ∈ cols := by
  have whole : cols.length / GROUP_AMOUNT * GROUP_AMOUNT ≤ cols.length := Nat.div_mul_le_self _ _
  constructor
  · rintro ⟨group, member, inside⟩
    rw [inputGroups, List.mem_append, List.mem_map, List.mem_map] at member
    obtain ⟨number, -, rfl⟩ | ⟨single, rest, rfl⟩ := member
    · exact List.mem_of_mem_drop (List.mem_of_mem_take inside)
    · obtain rfl := List.mem_singleton.mp inside
      exact List.mem_of_mem_drop rest
  · intro member
    obtain ⟨place, inside, rfl⟩ := List.getElem_of_mem member
    by_cases grouped : place < cols.length / GROUP_AMOUNT * GROUP_AMOUNT
    · have positive : 0 < GROUP_AMOUNT := by decide
      refine ⟨(cols.drop (GROUP_AMOUNT * (place / GROUP_AMOUNT))).take GROUP_AMOUNT, ?_, ?_⟩
      · rw [inputGroups, List.mem_append, List.mem_map]
        refine .inl ⟨place / GROUP_AMOUNT, ?_, rfl⟩
        rw [List.mem_range, Nat.div_lt_iff_lt_mul positive]
        exact grouped
      · have parts := Nat.div_add_mod place GROUP_AMOUNT
        have short := Nat.mod_lt place positive
        rw [List.mem_iff_getElem?]
        refine ⟨place % GROUP_AMOUNT, ?_⟩
        rw [List.getElem?_take_of_lt short, List.getElem?_drop, parts]
        exact List.getElem?_eq_getElem inside
    · refine ⟨[cols[place]], ?_, List.mem_singleton_self _⟩
      rw [inputGroups, List.mem_append, List.mem_map, List.mem_map]
      refine .inr ⟨cols[place], ?_, rfl⟩
      rw [List.mem_iff_getElem?]
      refine ⟨place - cols.length / GROUP_AMOUNT * GROUP_AMOUNT, ?_⟩
      rw [List.getElem?_drop, Nat.add_sub_cancel' (Nat.not_lt.mp grouped)]
      exact List.getElem?_eq_getElem inside

section Construct

variable {matrix : Galois16RecMatrix} (shaped : matrix.Shaped) {inputValid : List Bool}
  (recovery : List ℕ) {mat : RecWords}

include shaped

/-- The rows that are computed from logarithms are right, and others are left alone. -/
theorem CONSTRUCT_VIA_EXP_cell (valid : matrix.validCount = inputValid.count true) {recs : List ℕ}
    (rows : ∀ rec ∈ recs, rec < matrix.numRec) {row : ℕ} (inside : row < matrix.numRec) {col : ℕ}
    (known : col < inputValid.length)
    (right : row ∈ recs ∨ mat (matrix.cell row col) = coefficients inputValid recovery row col) :
    matrix.CONSTRUCT_VIA_EXP (targetCols inputValid 0 0 matrix.validCount) recovery recs mat
        (matrix.cell row col) =
      coefficients inputValid recovery row col := by
  have place (rec column : ℕ) : rec * matrix.stripeWords +
      (column / matrix.stripeWords * matrix.stripeWords * matrix.numRec +
        column % matrix.stripeWords) = matrix.cell rec column := by
    rw [cell, MAT_ROW]
    ring
  have found : (columns inputValid)[col]? = some ((columns inputValid).getD col 0) := by
    have short : col < (columns inputValid).length := by
      rw [columns_length]
      exact known
    rw [List.getD_eq_getElem _ _ short]
    exact List.getElem?_eq_getElem short
  rw [CONSTRUCT_VIA_EXP]
  apply writes_at
  · intro write member same
    obtain ⟨group, inGroups, inGroup⟩ := List.mem_flatMap.mp member
    obtain ⟨rec, recMember, inRec⟩ := List.mem_flatMap.mp inGroup
    obtain ⟨⟨input, column⟩, inputMember, rfl⟩ := List.mem_map.mp inRec
    have same : rec * matrix.stripeWords +
        (column / matrix.stripeWords * matrix.stripeWords * matrix.numRec +
          column % matrix.stripeWords) = matrix.cell row col := same
    rw [place, cell_eq_iff shaped (rows rec recMember) inside] at same
    obtain ⟨rfl, rfl⟩ := same
    change gfmat_coeff_from_log (gfmat_input_log input) (recovery.getD rec 0) = _
    have column := (mem_inputGroups _ _).mp ⟨group, inGroups, inputMember⟩
    rw [valid, mem_targetCols, found] at column
    rw [coefficients, Option.some.inj column]
  · obtain member | same := right
    · left
      have column := (mem_targetCols inputValid _ col).mpr found
      rw [← valid, ← mem_inputGroups] at column
      obtain ⟨group, inGroups, inGroup⟩ := column
      refine ⟨_, List.mem_flatMap.mpr ⟨group, inGroups, List.mem_flatMap.mpr ⟨row, member,
        List.mem_map.mpr ⟨_, inGroup, rfl⟩⟩⟩, ?_⟩
      exact place row col
    · exact .inr same

omit shaped in
/-- Unless there are too many, all rows that do not follow the one before are among the skips. -/
theorem recSkips_spec (maxSkips count first : ℕ) (skips : List ℕ)
    (few : (recSkips recovery maxSkips (List.range' first count) (recovery.getD (first - 1) 0)
      skips).length < maxSkips) :
    (∀ rec ∈ skips, rec ∈ recSkips recovery maxSkips (List.range' first count)
        (recovery.getD (first - 1) 0) skips) ∧
      (∀ rec, first ≤ rec → rec < first + count →
        recovery.getD rec 0 ≠ recovery.getD (rec - 1) 0 + 1 →
          rec ∈ recSkips recovery maxSkips (List.range' first count)
            (recovery.getD (first - 1) 0) skips) ∧
        ∀ rec ∈ recSkips recovery maxSkips (List.range' first count) (recovery.getD (first - 1) 0)
          skips, rec ∈ skips ∨ first ≤ rec ∧ rec < first + count := by
  induction count generalizing first skips with
  | zero =>
    refine ⟨fun rec member => member, ?_, fun rec member => .inl member⟩
    intro rec lower upper
    omega
  | succ count ih =>
    rw [List.range'_succ, recSkips] at few ⊢
    by_cases gap : recovery.getD first 0 ≠ recovery.getD (first - 1) 0 + 1
    · rw [if_pos gap] at few ⊢
      by_cases many : (skips ++ [first]).length ≥ maxSkips
      · rw [if_pos many] at few
        omega
      · rw [if_neg many] at few ⊢
        obtain ⟨kept, gaps, known⟩ := ih (first + 1) (skips ++ [first]) few
        refine ⟨fun rec member => kept rec (List.mem_append_left _ member), ?_, ?_⟩
        · intro rec lower upper apart
          by_cases here : rec = first
          · exact kept rec (by rw [here]; exact List.mem_append_right _ (List.mem_singleton_self _))
          · exact gaps rec (by omega) (by omega) apart
        · intro rec member
          obtain before | later := known rec member
          · rw [List.mem_append, List.mem_singleton] at before
            obtain before | rfl := before
            · exact .inl before
            · exact .inr ⟨le_rfl, by omega⟩
          · exact .inr ⟨by omega, by omega⟩
    · rw [if_neg gap] at few ⊢
      obtain ⟨kept, gaps, known⟩ := ih (first + 1) skips few
      refine ⟨kept, ?_, ?_⟩
      · intro rec lower upper apart
        have other : rec ≠ first := by
          rintro rfl
          exact gap apart
        exact gaps rec (by omega) (by omega) apart
      · intro rec member
        exact (known rec member).imp_right fun later => ⟨by omega, by omega⟩

omit shaped in
/-- A row is the row before it times the first one. -/
theorem coefficients_next (small : ∀ input < inputValid.length,
      gfmat_input_log input < 2 ^ 16) {first row col : ℕ} (one : recovery.getD first 0 = 1)
    (exponents : ∀ index, recovery.getD index 0 < 2 ^ 16)
    (next : recovery.getD row 0 = recovery.getD (row - 1) 0 + 1) (known : col < inputValid.length) :
    coefficients inputValid recovery first col * coefficients inputValid recovery (row - 1) col =
      coefficients inputValid recovery row col := by
  have log := small _ (columns_lt known)
  rw [coefficients, coefficients, coefficients, gfmat_coeff_from_log_eq log (exponents first),
    gfmat_coeff_from_log_eq log (exponents (row - 1)), gfmat_coeff_from_log_eq log (exponents row), one,
    next, pow_one, pow_succ']

/-- The rows of a stripe from one row on, each from the row before it. -/
theorem multiplyRows_cell {recStart stripe : ℕ} (one : recovery.getD recStart 0 = 1)
    (exponents : ∀ index, recovery.getD index 0 < 2 ^ 16)
    (small : ∀ input < inputValid.length, gfmat_input_log input < 2 ^ 16) (count : ℕ)
    (fits : recStart + 1 + count ≤ matrix.numRec) (mat : RecWords)
    (before : ∀ row ≤ recStart, ∀ col < inputValid.length, mat (matrix.cell row col) =
      coefficients inputValid recovery row col)
    (gaps : ∀ row, recStart < row → row < matrix.numRec →
      recovery.getD row 0 ≠ recovery.getD (row - 1) 0 + 1 → ∀ col < inputValid.length,
        mat (matrix.cell row col) = coefficients inputValid recovery row col)
    {row : ℕ} (inside : row < matrix.numRec) {col : ℕ} (known : col < inputValid.length) :
    (List.range' (recStart + 1) count).foldl (matrix.multiplyRow recovery recStart stripe) mat
        (matrix.cell row col) =
      if col / matrix.stripeWords = stripe ∧ row < recStart + 1 + count then
        coefficients inputValid recovery row col
      else mat (matrix.cell row col) := by
  induction count generalizing row with
  | zero =>
    split
    · next here => exact before row (by omega) col known
    · rfl
  | succ count ih =>
    have earlier := fun {row : ℕ} => @ih (by omega) row
    rw [List.range'_concat, List.foldl_append, List.foldl_cons, List.foldl_nil, Nat.one_mul,
      multiplyRow]
    have previous : (if recStart + 1 + count = recStart + 1 then 1
        else recovery.getD (recStart + 1 + count - 1) 0) =
          recovery.getD (recStart + 1 + count - 1) 0 := by
      split
      · next first =>
        rw [show recStart + 1 + count - 1 = recStart by omega, one]
      · rfl
    rw [previous]
    by_cases follows : recovery.getD (recStart + 1 + count) 0 =
        recovery.getD (recStart + 1 + count - 1) 0 + 1
    · rw [if_pos follows, if_congr (cell_region shaped inside (by omega)) rfl rfl]
      by_cases here : row = recStart + 1 + count ∧ col / matrix.stripeWords = stripe
      · obtain ⟨rfl, stripeHere⟩ := here
        rw [if_pos ⟨rfl, stripeHere⟩, if_pos ⟨stripeHere, by omega⟩, cell_shift _ stripeHere,
          cell_shift _ stripeHere, earlier (by omega), earlier (by omega),
          if_pos ⟨stripeHere, by omega⟩, if_pos ⟨stripeHere, by omega⟩]
        exact coefficients_next recovery small one exponents follows known
      · rw [if_neg here, earlier inside]
        exact if_congr (by omega) rfl rfl
    · rw [if_neg follows, earlier inside]
      by_cases here : row = recStart + 1 + count
      · rw [if_neg (by omega), gaps row (by omega) inside (here ▸ follows) col known, ite_self]
      · exact if_congr (by omega) rfl rfl

/-- One stripe after the other: the rows behind the first one are right in as many stripes. -/
theorem multiplyStripes_cell {recStart : ℕ} (one : recovery.getD recStart 0 = 1)
    (exponents : ∀ index, recovery.getD index 0 < 2 ^ 16)
    (small : ∀ input < inputValid.length, gfmat_input_log input < 2 ^ 16)
    (room : recStart < matrix.numRec)
    (before : ∀ row ≤ recStart, ∀ col < inputValid.length, mat (matrix.cell row col) =
      coefficients inputValid recovery row col)
    (gaps : ∀ row, recStart < row → row < matrix.numRec →
      recovery.getD row 0 ≠ recovery.getD (row - 1) 0 + 1 → ∀ col < inputValid.length,
        mat (matrix.cell row col) = coefficients inputValid recovery row col) (count : ℕ) :
    ∀ row < matrix.numRec, ∀ col < inputValid.length, (List.range count).foldl (fun mat stripe =>
        (List.range' (recStart + 1) (matrix.numRec - (recStart + 1))).foldl
          (matrix.multiplyRow recovery recStart stripe) mat) mat (matrix.cell row col) =
      if col / matrix.stripeWords < count ∨ row ≤ recStart ∨
          recovery.getD row 0 ≠ recovery.getD (row - 1) 0 + 1 then
        coefficients inputValid recovery row col
      else mat (matrix.cell row col) := by
  induction count with
  | zero =>
    intro row inside col known
    split
    case isTrue right =>
      obtain none | first | gap := right
      · exact absurd none (Nat.not_lt_zero _)
      · exact before row first col known
      · by_cases first : row ≤ recStart
        · exact before row first col known
        · exact gaps row (by omega) inside gap col known
    case isFalse => rfl
  | succ count ih =>
    intro row inside col known
    rw [List.range_succ, List.foldl_append, List.foldl_cons, List.foldl_nil,
      multiplyRows_cell shaped recovery one exponents small (matrix.numRec - (recStart + 1)) (by omega)
        _ ?_ ?_ inside known,
      ih row inside col known]
    · by_cases here : col / matrix.stripeWords = count
      · rw [if_pos ⟨here, by omega⟩, if_pos (.inl (by omega))]
      · rw [if_neg fun found => here found.1]
        exact if_congr (or_congr_left (by omega)) rfl rfl
    · intro row first col known
      rw [ih row (by omega) col known, if_pos (.inr (.inl first))]
    · intro row behind inside gap col known
      rw [ih row inside col known, if_pos (.inr (.inr gap))]

/-- Ones in the first row, in as many stripes. -/
theorem ones_cell (mat : RecWords) (count : ℕ) {row : ℕ} (inside : row < matrix.numRec) (col : ℕ) :
    (List.range count).foldl (fun mat stripe address =>
      if stripe * matrix.numRec * matrix.stripeWords ≤ address ∧
          address < stripe * matrix.numRec * matrix.stripeWords + matrix.stripeWords then 1
      else mat address) mat (matrix.cell row col) =
    if row = 0 ∧ col / matrix.stripeWords < count then 1 else mat (matrix.cell row col) := by
  induction count with
  | zero =>
    rw [if_neg fun found => Nat.not_lt_zero _ found.2]
    rfl
  | succ count ih =>
    have region := @cell_region matrix shaped row 0 count col inside (by omega)
    rw [MAT_ROW, Nat.add_zero] at region
    rw [List.range_succ, List.foldl_append, List.foldl_cons, List.foldl_nil, ih,
      if_congr region rfl rfl]
    by_cases here : row = 0 ∧ col / matrix.stripeWords = count
    · rw [if_pos here, if_pos (by omega)]
    · rw [if_neg here]
      exact if_congr (by omega) rfl rfl

/-- Every coefficient is right, whichever way the rows are computed. -/
theorem Construct_levelled (valid : matrix.validCount = inputValid.count true)
    (width : matrix.validCount + matrix.numRec = inputValid.length)
    (enough : matrix.numRec ≤ recovery.length)
    (exponents : ∀ index, recovery.getD index 0 < 2 ^ 16)
    (small : ∀ input < inputValid.length, gfmat_input_log input < 2 ^ 16) (mat : RecWords) :
    matrix.Levelled (coefficients inputValid recovery) (fun _ => 0)
      (matrix.Construct inputValid recovery mat) := by
  intro row inside col known
  rw [width] at known
  change _ = coefficients inputValid recovery row col
  have stripeInside : col / matrix.stripeWords < matrix.numStripes :=
    stripe_lt shaped (by omega)
  -- the first row is all ones for the exponent zero
  have unit (zero : recovery.getD 0 0 = 0) (col : ℕ) (known : col < inputValid.length) :
      coefficients inputValid recovery 0 col = 1 := by
    rw [coefficients, gfmat_coeff_from_log_eq (small _ (columns_lt known)) (exponents 0), zero, pow_zero]
  rw [Construct]
  generalize filled_eq : (if recovery.getD 0 0 = 0 then
    (List.range matrix.numStripes).foldl (fun mat stripe address =>
      if stripe * matrix.numRec * matrix.stripeWords ≤ address ∧
          address < stripe * matrix.numRec * matrix.stripeWords + matrix.stripeWords then 1
      else mat address) mat else mat) = filled
  generalize start_eq : (if recovery.getD 0 0 = 0 then 1 else 0) = recStart
  have begun : ∀ row < recStart, row < matrix.numRec → ∀ col < inputValid.length,
      filled (matrix.cell row col) = coefficients inputValid recovery row col := by
    intro row before inside col known
    split_ifs at start_eq with zero
    · rw [if_pos zero] at filled_eq
      obtain rfl : row = 0 := by omega
      rw [← filled_eq, ones_cell shaped mat _ inside col,
        if_pos ⟨rfl, stripe_lt shaped (by omega)⟩, unit zero col known]
    · omega
  by_cases short : recStart ≥ recovery.length
  case pos =>
    rw [if_pos short]
    exact begun row (by omega) inside col known
  rw [if_neg short]
  split
  case isTrue fast =>
    obtain ⟨one, -, few⟩ := fast
    have startOne := recSkips_spec recovery (matrix.numRec / 2) (matrix.numRec - (recStart + 1))
      (recStart + 1) [recStart]
    rw [Nat.add_sub_cancel, one] at startOne
    obtain ⟨kept, gaps, bounds⟩ := startOne few
    have room : recStart < matrix.numRec := by
      split_ifs at start_eq <;> omega
    have via := fun {row : ℕ} (inside : row < matrix.numRec) {col : ℕ}
      (known : col < inputValid.length) => @CONSTRUCT_VIA_EXP_cell matrix shaped inputValid recovery
        filled valid (recSkips recovery (matrix.numRec / 2)
          (List.range' (recStart + 1) (matrix.numRec - (recStart + 1))) 1 [recStart]) (by
            intro rec member
            obtain first | behind := bounds rec member
            · rw [List.mem_singleton.mp first]
              exact room
            · omega) row inside col known
    generalize matrix.CONSTRUCT_VIA_EXP (targetCols inputValid 0 0 matrix.validCount) recovery
      (recSkips recovery (matrix.numRec / 2)
        (List.range' (recStart + 1) (matrix.numRec - (recStart + 1))) 1 [recStart]) filled = built at via
    have before : ∀ row ≤ recStart, ∀ col < inputValid.length, built (matrix.cell row col) =
        coefficients inputValid recovery row col := by
      intro row first col known
      apply via (by omega) known
      by_cases here : row = recStart
      · left
        rw [here]
        exact kept recStart (List.mem_singleton_self _)
      · exact .inr (begun row (by omega) (by omega) col known)
    have gapRows : ∀ row, recStart < row → row < matrix.numRec →
        recovery.getD row 0 ≠ recovery.getD (row - 1) 0 + 1 → ∀ col < inputValid.length,
          built (matrix.cell row col) = coefficients inputValid recovery row col := by
      intro row behind inside gap col known
      exact via inside known (.inl (gaps row behind (by omega) gap))
    rw [multiplyStripes_cell shaped recovery one exponents small room before gapRows matrix.numStripes
      row inside col known, if_pos (.inl stripeInside)]
  case isFalse =>
    refine CONSTRUCT_VIA_EXP_cell shaped recovery valid (fun rec member => ?_) inside known ?_
    · have bounds := List.mem_range'_1.mp member
      omega
    · by_cases first : row < recStart
      · exact .inr (begun row first inside col known)
      · left
        rw [List.mem_range'_1]
        omega

end Construct

/-! ## Computation -/

section Setup

variable (method : InvertMethod) {inputs validCount : ℕ}

theorem CEIL_DIV_mul_le {a b : ℕ} (positive : 0 < b) : a ≤ CEIL_DIV a b * b := by
  have bound := @Nat.lt_div_mul_add (a + b - 1) b positive
  rw [CEIL_DIV]
  omega

/-- The sizes that are chosen have room for every word. -/
theorem setup_shaped (missing : validCount < inputs) : (setup method inputs validCount).Shaped := by
  have stride := method.stride_pos
  obtain ⟨half, even⟩ := method.stride_even
  have wide : 0 < CEIL_DIV (inputs * 2) (max (ROUND_DIV (inputs * 2) method.idealChunkSize) 1) := by
    have positive : 0 < max (ROUND_DIV (inputs * 2) method.idealChunkSize) 1 :=
      lt_of_lt_of_le Nat.zero_lt_one (le_max_right _ _)
    have all := @CEIL_DIV_mul_le (inputs * 2) _ positive
    apply Nat.pos_of_ne_zero
    intro zero
    rw [zero, Nat.zero_mul] at all
    omega
  generalize strides_eq : (CEIL_DIV (inputs * 2)
    (max (ROUND_DIV (inputs * 2) method.idealChunkSize) 1) + (method.stride - 1)) / method.stride =
      strides
  have some : 0 < strides := by
    rw [← strides_eq]
    apply Nat.div_pos _ stride
    omega
  have width : strides * method.stride / 2 * 2 = strides * method.stride := by
    rw [even, Nat.mul_left_comm, Nat.mul_div_cancel_left _ Nat.zero_lt_two, Nat.mul_comm]
  have full : 0 < strides * method.stride := Nat.mul_pos some stride
  have all := @CEIL_DIV_mul_le (inputs * 2) _ full
  constructor
  · simp only [setup, strides_eq]
    omega
  · simp only [setup, strides_eq]
    rw [← width, ← Nat.mul_assoc] at all
    rw [width] at all
    omega

/-- There is room for a group of rows. -/
theorem setup_grouped : ∀ rows ≤ (setup method inputs validCount).method.idealInputMultiple,
    rows ≤ 6 → rows ≤ (setup method inputs validCount).numRec →
      rows ≤ (setup method inputs validCount).rowGroupSize := by
  intro rows ideal few fits
  simp only [setup, PP_INVERT_MAX_MULTI_ROWS] at ideal fits ⊢
  omega

end Setup

/-- The inverse of a matrix, and the recovery slices of its rows. -/
structure Inverted (matrix : Galois16RecMatrix) (inputValid : List Bool) (recovery kept : List ℕ)
    (mat : RecWords) : Prop where
  sublist : kept.Sublist recovery
  enough : matrix.numRec ≤ kept.length
  nonzero : ∀ row < matrix.numRec, pivot (coefficients inputValid kept) matrix.validCount row ≠ 0
  levelled : matrix.Levelled (coefficients inputValid kept) (fun _ => matrix.numRec) mat

/-- How two inversions agree. -/
def Agree (first second : Galois16RecMatrix) (inputValid : List Bool) (recovery : List ℕ) :
    Option (List ℕ × RecWords) → Option (List ℕ × RecWords) → Prop
  | none, none => True
  | some (kept, mat), some (other, words) => ∃ slices,
    kept = slices.take first.numRec ∧ other = slices.take second.numRec ∧
      Inverted first inputValid recovery slices mat ∧ Inverted second inputValid recovery slices words
  | _, _ => False

theorem Inverted.mono {matrix : Galois16RecMatrix} {inputValid : List Bool}
    {recovery more kept : List ℕ} {mat : RecWords}
    (inverted : Inverted matrix inputValid recovery kept mat) (sublist : recovery.Sublist more) :
    Inverted matrix inputValid more kept mat :=
  ⟨inverted.sublist.trans sublist, inverted.enough, inverted.nonzero, inverted.levelled⟩

theorem Agree.mono {first second : Galois16RecMatrix} {inputValid : List Bool}
    {recovery more : List ℕ} {one other : Option (List ℕ × RecWords)}
    (agree : Agree first second inputValid recovery one other) (sublist : recovery.Sublist more) :
    Agree first second inputValid more one other := by
  match one, other, agree with
  | none, none, _ => trivial
  | some (_, _), some (_, _), ⟨slices, kept, same, inverted, second⟩ =>
    exact ⟨slices, kept, same, inverted.mono sublist, second.mono sublist⟩

/-- What a matrix needs for an inversion. -/
structure Ready (matrix : Galois16RecMatrix) (inputValid : List Bool) : Prop where
  shaped : matrix.Shaped
  grouped : ∀ rows ≤ matrix.method.idealInputMultiple, rows ≤ 6 → rows ≤ matrix.numRec →
    rows ≤ matrix.rowGroupSize
  valid : matrix.validCount = inputValid.count true
  width : matrix.validCount + matrix.numRec = inputValid.length

theorem Ready.processed {matrix : Galois16RecMatrix} {inputValid : List Bool}
    (ready : Ready matrix inputValid) (small : inputValid.length ≤ 32768) {recovery : List ℕ}
    (exponents : ∀ exponent ∈ recovery, exponent < 2 ^ 16) (enough : matrix.numRec ≤ recovery.length)
    (left : ℕ) (mat : RecWords) :
    Processed matrix (coefficients inputValid recovery) 0 ([6, 5, 4, 3, 2, 1].foldlM
        (matrix.INVERT_GROUP left) (0, matrix.Construct inputValid recovery mat)) ∧
      ∀ last, [6, 5, 4, 3, 2, 1].foldlM (matrix.INVERT_GROUP left)
        (0, matrix.Construct inputValid recovery mat) = .ok last → last.1 = matrix.numRec := by
  apply invert_processed ready.shaped left ready.grouped
  apply Construct_levelled ready.shaped recovery ready.valid ready.width enough
  · intro index
    by_cases inside : index < recovery.length
    · rw [List.getD_eq_getElem _ _ inside]
      exact exponents _ (List.getElem_mem inside)
    · rw [List.getD_eq_default _ _ (Nat.not_lt.mp inside)]
      decide
  · intro input inside
    exact (gfmat_input_log_lt (by omega)).trans (by decide)

/-- Inversions of the same matrix drop the same recovery slices and have the same inverse. -/
theorem invert_loop_agree {first second : Galois16RecMatrix} {inputValid : List Bool}
    (ready : Ready first inputValid) (other : Ready second inputValid)
    (small : inputValid.length ≤ 32768) (fuel : ℕ) {recovery : List ℕ} (room : recovery.length < fuel)
    (exponents : ∀ exponent ∈ recovery, exponent < 2 ^ 16) (mat words : RecWords) :
    Agree first second inputValid recovery (first.invert_loop inputValid fuel recovery mat)
      (second.invert_loop inputValid fuel recovery words) := by
  have same : first.numRec = second.numRec := by
    have := ready.width
    have := other.width
    have := ready.valid
    have := other.valid
    omega
  have counts : first.validCount = second.validCount := ready.valid.trans other.valid.symm
  induction fuel generalizing recovery mat words with
  | zero => omega
  | succ fuel ih =>
    rw [invert_loop, invert_loop, same]
    by_cases few : second.numRec > recovery.length
    · rw [if_pos few, if_pos few]
      trivial
    rw [if_neg few, if_neg few]
    obtain ⟨processed, all⟩ := ready.processed small exponents (by omega) recovery.length mat
    obtain ⟨otherProcessed, otherAll⟩ := other.processed small exponents (by omega) recovery.length words
    cases one : [6, 5, 4, 3, 2, 1].foldlM (first.INVERT_GROUP recovery.length)
        (0, first.Construct inputValid recovery mat) with
    | error failed =>
      rw [one] at processed
      obtain ⟨row, mat⟩ := failed
      obtain ⟨range, zero, nonzero⟩ := processed
      cases two : [6, 5, 4, 3, 2, 1].foldlM (second.INVERT_GROUP recovery.length)
          (0, second.Construct inputValid recovery words) with
      | error otherFailed =>
        rw [two] at otherProcessed
        obtain ⟨otherRow, words⟩ := otherFailed
        obtain ⟨otherRange, otherZero, otherNonzero⟩ := otherProcessed
        -- both find the first pivot that is zero
        have rows : row = otherRow := by
          rw [counts] at zero nonzero
          by_contra apart
          obtain before | behind := Nat.lt_or_gt_of_ne apart
          · exact otherNonzero row (Nat.zero_le _) before zero
          · exact nonzero otherRow (Nat.zero_le _) behind otherZero
        subst rows
        have inside : row < recovery.length := by omega
        apply Agree.mono _ (List.eraseIdx_sublist recovery row)
        apply ih
        · rw [List.length_eraseIdx_of_lt inside]
          omega
        · intro exponent member
          exact exponents exponent (List.mem_of_mem_eraseIdx member)
      | ok otherLast =>
        rw [two] at otherProcessed
        have end_ := otherAll otherLast two
        obtain ⟨rec, words⟩ := otherLast
        have nonzeroThere := otherProcessed.2.1 row (Nat.zero_le _) (by
          have : rec = second.numRec := end_
          omega)
        rw [counts] at zero
        exact absurd zero nonzeroThere
    | ok last =>
      rw [one] at processed
      have end_ := all last one
      obtain ⟨rec, mat⟩ := last
      obtain ⟨-, nonzero, levelled⟩ := processed
      obtain rfl : rec = first.numRec := end_
      cases two : [6, 5, 4, 3, 2, 1].foldlM (second.INVERT_GROUP recovery.length)
          (0, second.Construct inputValid recovery words) with
      | error otherFailed =>
        rw [two] at otherProcessed
        obtain ⟨row, words⟩ := otherFailed
        obtain ⟨range, zero, -⟩ := otherProcessed
        have nonzeroHere := nonzero row (Nat.zero_le _) (by omega)
        rw [counts] at nonzeroHere
        exact absurd zero nonzeroHere
      | ok otherLast =>
        rw [two] at otherProcessed
        have otherEnd := otherAll otherLast two
        obtain ⟨otherRec, words⟩ := otherLast
        obtain ⟨-, otherNonzero, otherLevelled⟩ := otherProcessed
        obtain rfl : otherRec = second.numRec := otherEnd
        refine ⟨recovery, by rw [same], rfl, ?_, ?_⟩
        · exact ⟨List.Sublist.refl _, by omega, fun row => nonzero row (Nat.zero_le _), levelled⟩
        · exact ⟨List.Sublist.refl _, by omega, fun row => otherNonzero row (Nat.zero_le _),
            otherLevelled⟩

/-- What `Compute` begins with is ready. -/
theorem setup_ready (method : InvertMethod) {inputValid : List Bool} (missing : false ∈ inputValid) :
    Ready (setup method inputValid.length (inputValid.count true)) inputValid := by
  have counts := List.count_not_add_count inputValid true
  have some := List.count_pos_iff.mpr missing
  constructor
  · exact setup_shaped method (by simp only [Bool.not_true] at counts; omega)
  · exact setup_grouped method
  · rfl
  · simp only [setup, Bool.not_true] at counts ⊢
    omega

theorem setup_numRec (method : InvertMethod) (inputValid : List Bool) :
    (setup method inputValid.length (inputValid.count true)).numRec = inputValid.count false := by
  have counts := List.count_not_add_count inputValid true
  simp only [setup, Bool.not_true] at counts ⊢
  omega

/-- Computations of the same matrix agree, whatever the memory was before. -/
theorem Compute_agree (method other : InvertMethod) {inputValid : List Bool}
    (missing : false ∈ inputValid) (small : inputValid.length ≤ 32768) {recovery : List ℕ}
    (exponents : ∀ exponent ∈ recovery, exponent < 2 ^ 16) (mat words : RecWords) :
    Agree (setup method inputValid.length (inputValid.count true))
      (setup other inputValid.length (inputValid.count true)) inputValid
      (recovery.insertionSort (· ≤ ·)) (Compute method inputValid (inputValid.count true) recovery mat)
      (Compute other inputValid (inputValid.count true) recovery words) := by
  have perm := List.perm_insertionSort (· ≤ ·) recovery
  rw [Compute, Compute]
  simp only [setup_numRec]
  by_cases few : inputValid.count false > recovery.length
  · rw [if_pos few, if_pos few]
    trivial
  · rw [if_neg few, if_neg few]
    apply invert_loop_agree (setup_ready method missing) (setup_ready other missing) small
    · rw [perm.length_eq]
      exact Nat.lt_succ_self _
    · exact fun exponent member => exponents exponent (perm.mem_iff.mp member)

/-! ## Recovery -/

section Values

variable {M : Type*} [AddCommGroup M]

theorem sum_getD (values : List ℕ) (term : ℕ → M) :
    ∑ index ∈ Finset.range values.length, term (values.getD index 0) = (values.map term).sum := by
  induction values with
  | nil => rfl
  | cons first rest ih =>
    rw [List.length_cons, Finset.sum_range_succ', List.map_cons, List.sum_cons, ← ih,
      add_comm]
    rfl

/-- A sum over all inputs, in the order of their columns. -/
theorem sum_columns (inputValid : List Bool) (term : ℕ → M) :
    ∑ input ∈ Finset.range inputValid.length, term input =
      ∑ col ∈ Finset.range inputValid.length, term ((columns inputValid).getD col 0) := by
  have ordered := sum_getD (columns inputValid) term
  rw [columns_length, ((columns_perm inputValid).map term).sum_eq] at ordered
  rw [ordered, ← sum_getD, List.length_range]
  apply Finset.sum_congr rfl
  intro input inside
  rw [List.getD_eq_getElem _ _ (by rw [List.length_range]; exact Finset.mem_range.mp inside),
    List.getElem_range]

variable [Module Gf16 M]

/-- The missing inputs of an inverted matrix. -/
theorem Inverted.recovers {matrix : Galois16RecMatrix} {inputValid : List Bool}
    (ready : Ready matrix inputValid) (small : inputValid.length ≤ 32768) {recovery kept : List ℕ}
    (exponents : ∀ exponent ∈ recovery, exponent < 2 ^ 16) {mat : RecWords}
    (inverted : Inverted matrix inputValid recovery kept mat) (data slices : ℕ → M)
    (encoded : ∀ row < matrix.numRec, slices row = ∑ input ∈ Finset.range inputValid.length,
      ((root : Gf16) ^ gfmat_input_log input) ^ kept.getD row 0 • data input) {row : ℕ}
    (inside : row < matrix.numRec) :
    data ((inputsWhere false inputValid 0).getD row 0) =
      ∑ col ∈ Finset.range matrix.validCount,
          matrix.GetFactor mat col row • data ((inputsWhere true inputValid 0).getD col 0) +
        ∑ col ∈ Finset.range matrix.numRec,
          matrix.GetFactor mat (matrix.validCount + col) row • slices col := by
  have factor {row col : ℕ} : matrix.GetFactor mat col row = mat (matrix.cell row col) := by
    rw [GetFactor, cell, MAT_ROW]
    congr 1
    ring
  have validLength : (inputsWhere true inputValid 0).length = matrix.validCount := by
    rw [inputsWhere_length, ready.valid]
  have here {col : ℕ} (known : col < matrix.validCount) :
      (columns inputValid).getD col 0 = (inputsWhere true inputValid 0).getD col 0 := by
    rw [columns]
    exact List.getD_append _ _ _ _ (by omega)
  have lost : (columns inputValid).getD (matrix.validCount + row) 0 =
      (inputsWhere false inputValid 0).getD row 0 := by
    rw [columns, List.getD_append_right _ _ _ _ (by omega), validLength, Nat.add_sub_cancel_left]
  have small' {input : ℕ} (known : input < inputValid.length) : gfmat_input_log input < 2 ^ 16 :=
    (gfmat_input_log_lt (by omega)).trans (by decide)
  have keptSmall (index : ℕ) : kept.getD index 0 < 2 ^ 16 := by
    by_cases short : index < kept.length
    · rw [List.getD_eq_getElem _ _ short]
      exact exponents _ (inverted.sublist.subset (List.getElem_mem short))
    · rw [List.getD_eq_default _ _ (Nat.not_lt.mp short)]
      decide
  have system : ∀ row < matrix.numRec, slices row = ∑ col ∈ Finset.range inputValid.length,
      coefficients inputValid kept row col • data ((columns inputValid).getD col 0) := by
    intro row inside
    rw [encoded row inside, sum_columns]
    apply Finset.sum_congr rfl
    intro col known
    rw [coefficients, gfmat_coeff_from_log_eq (small' (columns_lt (Finset.mem_range.mp known)))
      (keptSmall row)]
  have solved := exchanged_solves ready.width.le system le_rfl inverted.nonzero inside
  rw [rowValue, if_pos inside, lost] at solved
  rw [solved, ← ready.width, Finset.sum_range_add]
  congr 1
  · apply Finset.sum_congr rfl
    intro col known
    have below := Finset.mem_range.mp known
    rw [columnValue, if_neg (by omega), here below, factor, inverted.levelled row inside col (by omega)]
  · apply Finset.sum_congr rfl
    intro col known
    have below := Finset.mem_range.mp known
    rw [columnValue, if_pos (by omega), Nat.add_sub_cancel_left, factor,
      inverted.levelled row inside _ (by omega)]

end Values

/-- When `Compute` succeeds, its coefficients give the missing inputs from those that are there and
from the recovery slices that it kept. Any other method and host keep the same slices and find the
same coefficients. -/
theorem Compute_recovers (method : InvertMethod) {inputValid : List Bool}
    (missing : false ∈ inputValid) (small : inputValid.length ≤ 32768) {recovery kept : List ℕ}
    (exponents : ∀ exponent ∈ recovery, exponent < 2 ^ 16) {mat result : RecWords}
    (computed : Compute method inputValid (inputValid.count true) recovery mat =
      some (kept, result)) :
    kept.Subperm recovery ∧ kept.length = inputValid.count false ∧
      (∀ (M : Type) [AddCommGroup M] [Module Gf16 M] (data slices : ℕ → M),
        (∀ row < kept.length, slices row = ∑ input ∈ Finset.range inputValid.length,
          ((root : Gf16) ^ gfmat_input_log input) ^ kept.getD row 0 • data input) →
        ∀ row < kept.length, data ((inputsWhere false inputValid 0).getD row 0) =
          ∑ col ∈ Finset.range (inputValid.count true),
              (setup method inputValid.length (inputValid.count true)).GetFactor result col row •
                data ((inputsWhere true inputValid 0).getD col 0) +
            ∑ col ∈ Finset.range kept.length,
              (setup method inputValid.length (inputValid.count true)).GetFactor result
                (inputValid.count true + col) row • slices col) ∧
      ∀ (other : InvertMethod) (words : RecWords), ∃ otherResult,
        Compute other inputValid (inputValid.count true) recovery words = some (kept, otherResult) ∧
          ∀ row < kept.length, ∀ col < inputValid.length,
            (setup other inputValid.length (inputValid.count true)).GetFactor otherResult col row =
              (setup method inputValid.length (inputValid.count true)).GetFactor result col row := by
  have perm := List.perm_insertionSort (· ≤ ·) recovery
  have sorted : ∀ exponent ∈ recovery.insertionSort (· ≤ ·), exponent < 2 ^ 16 :=
    fun exponent member => exponents exponent (perm.mem_iff.mp member)
  have ready := setup_ready method missing
  have rows := setup_numRec method inputValid
  have own := Compute_agree method method missing small exponents mat mat
  rw [computed] at own
  obtain ⟨slicesKept, keptEq, -, inverted, -⟩ := own
  have enough := inverted.enough
  have length : kept.length = inputValid.count false := by
    rw [keptEq, List.length_take, ← rows]
    omega
  have sameExponent {row : ℕ} (inside : row < kept.length) :
      kept.getD row 0 = slicesKept.getD row 0 := by
    rw [keptEq, List.getD_eq_getElem?_getD, List.getD_eq_getElem?_getD,
      List.getElem?_take_of_lt (by omega)]
  refine ⟨?_, length, ?_, ?_⟩
  · rw [keptEq]
    exact ((List.take_sublist _ _).trans inverted.sublist).subperm.trans perm.subperm
  · intro M _ _ data slices encoded row inside
    rw [length, ← rows] at inside encoded ⊢
    exact inverted.recovers ready small sorted data slices
      (fun row below => by rw [encoded row below, sameExponent (by omega)]) inside
  · intro other words
    have agree := Compute_agree method other missing small exponents mat words
    rw [computed] at agree
    generalize Compute other inputValid (inputValid.count true) recovery words = found at agree ⊢
    match found, agree with
    | some (otherKept, otherResult), ⟨slices, keptHere, keptThere, one, two⟩ =>
      have otherRows := setup_numRec other inputValid
      refine ⟨otherResult, ?_, ?_⟩
      · rw [keptHere, keptThere, rows, otherRows]
      · intro row inside col known
        have factor (matrix : Galois16RecMatrix) (mat : RecWords) :
            matrix.GetFactor mat col row = mat (matrix.cell row col) := by
          rw [GetFactor, cell, MAT_ROW]
          congr 1
          ring
        have width := ready.width
        have otherWidth := (setup_ready other missing).width
        rw [factor, factor, one.levelled row (by omega) col (by omega),
          two.levelled row (by omega) col (by omega), rows, otherRows]
        rfl

/-- The scalar method, with one thread. -/
def scalarMethod : InvertMethod where
  idealChunkSize := 4096
  stride := 2
  idealInputMultiple := 1
  numThreads := 1
  canUseFastMul := false
  share := fun total parts part => total * part / parts
  order := fun _ calls => calls
  stride_pos := by decide
  stride_even := by decide
  multiple_pos := by decide
  share_first := fun _ _ => Nat.zero_div _
  share_last := fun _ _ positive => Nat.mul_div_cancel _ positive
  share_monotone := fun total parts _ _ before => Nat.div_le_div_right (Nat.mul_le_mul_left total before)
  order_perm := fun _ calls => List.Perm.refl calls

/-- The second and the third of three inputs come back from the first and from two slices. -/
theorem Compute_recovers_two : ∃ result,
    Compute scalarMethod [true, false, false] 1 [1, 0] (fun _ => 0) = some ([0, 1], result) ∧
      ∀ data slices : ℕ → Gf16,
        (∀ row < 2, slices row = ∑ input ∈ Finset.range 3,
          ((root : Gf16) ^ gfmat_input_log input) ^ [0, 1].getD row 0 • data input) →
        ∀ row < 2, data (row + 1) =
          (setup scalarMethod 3 1).GetFactor result 0 row • data 0 +
            ∑ col ∈ Finset.range 2, (setup scalarMethod 3 1).GetFactor result (1 + col) row • slices col := by
  have found : (Compute scalarMethod [true, false, false] 1 [1, 0] (fun _ => 0)).map Prod.fst =
      some [0, 1] := by
    decide +kernel
  obtain ⟨⟨kept, result⟩, computed, same⟩ := Option.map_eq_some_iff.mp found
  obtain rfl : kept = [0, 1] := same
  refine ⟨result, computed, fun data slices encoded row inside => ?_⟩
  have lost : inputsWhere false [true, false, false] 0 = [1, 2] := rfl
  have known : inputsWhere true [true, false, false] 0 = [0] := rfl
  have recovered := (Compute_recovers scalarMethod (by decide) (by decide) (by decide) computed).2.2.1
    Gf16 data slices encoded row inside
  rw [lost, known] at recovered
  interval_cases row
  · simpa using recovered
  · simpa using recovered

end Galois16RecMatrix

end Par3
