import Par3.InvertRows

/-!
# Row groups of a matrix that is being inverted

The requests of an elimination have every row of every stripe once, but for the source rows, and
their order does not matter: source rows are left alone. So the other rows of a range go up to the
level of the source rows, and when all row groups are done every row is at the last level.
-/
namespace Par3

open BinaryField Word Interleaving PivotExchange

namespace Galois16RecMatrix

/-! ## Visited rows -/

section Targets

/-- The rows of a range but for a gap. -/
def targets (rec rows first last : ℕ) : List ℕ :=
  (List.range' first (last - first)).filter fun row => ¬ (rec ≤ row ∧ row < rec + rows)

variable {rec rows first last : ℕ}

theorem mem_targets {row : ℕ} : row ∈ targets rec rows first last ↔
    (first ≤ row ∧ row < last) ∧ ¬ (rec ≤ row ∧ row < rec + rows) := by
  rw [targets, List.mem_filter, List.mem_range'_1, decide_eq_true_eq]
  apply and_congr_left'
  omega

theorem targets_nodup : (targets rec rows first last).Nodup :=
  List.Nodup.filter _ List.nodup_range'

theorem targets_of_le (done : last ≤ first) : targets rec rows first last = [] := by
  rw [targets, Nat.sub_eq_zero_of_le done]
  rfl

theorem targets_append {middle : ℕ} (lower : first ≤ middle) (upper : middle ≤ last) :
    targets rec rows first last = targets rec rows first middle ++ targets rec rows middle last := by
  simp only [targets]
  rw [← List.filter_append]
  congr 1
  have ranges := @List.range'_append first (middle - first) (last - middle) 1
  rw [Nat.one_mul, Nat.add_sub_cancel' lower] at ranges
  rw [ranges]
  congr 1
  omega

/-- A gap is passed over. -/
theorem targets_gap : targets rec rows rec last = targets rec rows (rec + rows) last := by
  by_cases room : rec + rows ≤ last
  · rw [targets_append (Nat.le_add_right rec rows) room]
    have none : targets rec rows rec (rec + rows) = [] := by
      rw [List.eq_nil_iff_forall_not_mem]
      intro row member
      rw [mem_targets] at member
      exact member.2 member.1
    rw [none, List.nil_append]
  · rw [targets_of_le (Nat.le_of_not_le room)]
    rw [List.eq_nil_iff_forall_not_mem]
    intro row member
    rw [mem_targets] at member
    omega

theorem targets_cons (more : first < last) (outside : first < rec ∨ rec + rows ≤ first) :
    targets rec rows first last = first :: targets rec rows (first + 1) last := by
  rw [targets_append (Nat.le_succ first) more]
  have one : targets rec rows first (first + 1) = [first] := by
    rw [targets, Nat.add_sub_cancel_left, List.range'_one, List.filter_cons_of_pos, List.filter_nil]
    rw [decide_eq_true_eq]
    omega
  rw [one]
  rfl

theorem fillTargets_eq (some : 0 < rows) (fuel : ℕ) (enough : last - first ≤ fuel)
    (outside : first ≤ rec ∨ rec + rows ≤ first) :
    fillTargets rec rows last fuel first = targets rec rows first last := by
  induction fuel generalizing first with
  | zero => rw [fillTargets, targets_of_le (by omega)]
  | succ fuel ih =>
    rw [fillTargets]
    by_cases more : first < last
    · rw [if_pos more]
      by_cases here : first = rec
      · rw [if_pos here, here, targets_gap]
        exact ih (by omega) (.inr le_rfl)
      · rw [if_neg here, targets_cons more (by omega)]
        rw [ih (by omega) (by omega)]
    · rw [if_neg more, targets_of_le (Nat.not_lt.mp more)]

theorem invertTargets_eq (fuel : ℕ) (enough : last - first ≤ fuel)
    (outside : first < rec ∨ rec + rows ≤ first) :
    invertTargets rec rows last fuel first = targets rec rows first last := by
  induction fuel generalizing first with
  | zero => rw [invertTargets, targets_of_le (by omega)]
  | succ fuel ih =>
    rw [invertTargets]
    by_cases more : first < last
    · rw [if_pos more, targets_cons more outside]
      congr 1
      by_cases here : first + 1 = rec
      · rw [if_pos here, here, targets_gap]
        exact ih (by omega) (.inr le_rfl)
      · rw [if_neg here]
        exact ih (by omega) (by omega)
    · rw [if_neg more, targets_of_le (Nat.not_lt.mp more)]

/-- The parts of the workers have every row once, and begin outside of the gap. -/
theorem rowParts_spec {numRows : ℕ} (some : 0 < numRows) (fuel : ℕ) (enough : last - first ≤ fuel)
    (outside : first < rec ∨ rec + rows ≤ first ∨ last ≤ first) :
    ((rowParts rec rows last numRows fuel first).flatMap fun part =>
        targets rec rows part.1 part.2) = targets rec rows first last ∧
      ∀ part ∈ rowParts rec rows last numRows fuel first, first ≤ part.1 ∧ part.1 < part.2 ∧
        part.2 ≤ last ∧ (part.1 < rec ∨ rec + rows ≤ part.1) := by
  induction fuel generalizing first with
  | zero =>
    rw [rowParts, targets_of_le (by omega)]
    constructor
    · rfl
    · intro part member
      cases member
  | succ fuel ih =>
    rw [rowParts]
    by_cases more : first < last
    · rw [if_pos more]
      dsimp only
      generalize sendRows_eq : (if first + (if first + numRows > rec ∧ first ≤ rec then numRows + rows
        else numRows) > last then last - first else
          if first + numRows > rec ∧ first ≤ rec then numRows + rows else numRows) = sendRows
      have sent : 0 < sendRows ∧ first + sendRows ≤ last ∧
          (first + sendRows ≤ rec ∨ rec + rows ≤ first + sendRows ∨ last ≤ first + sendRows) := by
        split_ifs at sendRows_eq <;> omega
      obtain ⟨pos, upper, behind⟩ := sent
      obtain ⟨together, parts⟩ := @ih
        (if first + sendRows = rec then first + sendRows + rows else first + sendRows)
        (by split_ifs <;> omega) (by split_ifs <;> omega)
      constructor
      · rw [List.flatMap_cons, together, targets_append (Nat.le_add_right first sendRows) upper]
        congr 1
        split
        · next here => rw [here, targets_gap]
        · rfl
      · intro part member
        rw [List.mem_cons] at member
        obtain rfl | member := member
        · exact ⟨le_rfl, by omega, upper, by omega⟩
        · obtain ⟨lower, rest⟩ := parts part member
          refine ⟨?_, rest⟩
          apply le_trans _ lower
          split_ifs <;> omega
    · rw [if_neg more, targets_of_le (Nat.not_lt.mp more)]
      constructor
      · rfl
      · intro part member
        cases member

/-- A sum over rows that only has a term for one of them. -/
theorem sum_targets {M : Type*} [AddCommMonoid M] (row : ℕ) (term : ℕ → M) :
    ((targets rec rows first last).map fun target => if row = target then term target else 0).sum =
      if row ∈ targets rec rows first last then term row else 0 := by
  rw [← List.sum_toFinset _ targets_nodup, Finset.sum_ite_eq]
  exact if_congr List.mem_toFinset rfl rfl

end Targets

/-! ## Elimination -/

theorem sum_flatMap {ι M : Type*} [AddMonoid M] (values : List ι) (body : ι → List M) :
    (values.flatMap body).sum = (values.map fun value => (body value).sum).sum := by
  induction values with
  | nil => rfl
  | cons value rest ih =>
    rw [List.flatMap_cons, List.sum_append, List.map_cons, List.sum_cons, ih]

section Requests

variable {matrix : Galois16RecMatrix} {rows rec recCount recFirst recLast coeffWidth : ℕ}

/-- The rounds of the source rows fit when their number is a multiple. -/
theorem strided_fits {stop : ℕ} (some : 0 < rows) (whole : rows ∣ stop) {value : ℕ}
    (member : value ∈ strided 0 stop rows) : value + rows ≤ stop := by
  obtain ⟨count, rfl⟩ := whole
  have before := (strided_bounds some member).2
  rw [strided, List.mem_range'] at member
  obtain ⟨round, -, rfl⟩ := member
  rw [Nat.zero_add] at before ⊢
  have less := Nat.lt_of_mul_lt_mul_left before
  calc rows * round + rows = rows * (round + 1) := (Nat.mul_succ _ _).symm
    _ ≤ rows * count := Nat.mul_le_mul_left rows less

/-- What a cell gets from source rows, as the calls of a kernel have it. -/
def callTerm (matrix : Galois16RecMatrix) (mat : RecWords) (row col : ℕ) (call : MulAddCall) : Gf16 :=
  if row = call.target ∧ col / matrix.stripeWords = call.stripe then
    ∑ index ∈ Finset.range call.count,
      call.coeffs index * mat (matrix.cell (call.source + index) col)
  else 0

/-- What a cell gets from the source rows of an elimination. -/
def eliminated (matrix : Galois16RecMatrix) (mat : RecWords) (coeff : ℕ → Gf16)
    (rec recCount recFirst coeffWidth row col : ℕ) : Gf16 :=
  ∑ index ∈ Finset.range recCount,
    coeff ((row - recFirst) * coeffWidth + index) * mat (matrix.cell (rec + index) col)

/-- The rows of a group are the source rows, or no row of the range is one. -/
def Apart (rows rec recCount recFirst recLast : ℕ) : Prop :=
  recCount = rows ∨ recLast ≤ rec ∨ rec + recCount ≤ recFirst

/-- A round has the rows of a range but for all source rows. -/
theorem invertTargets_visited (some : 0 < rows) (whole : rows ∣ recCount)
    (apart : Apart rows rec recCount recFirst recLast) {first last recI : ℕ}
    (begins : recFirst ≤ first) (filled : first < last) (ends : last ≤ recLast)
    (outside : first < rec ∨ rec + rows ≤ first) (round : recI ∈ strided 0 recCount rows) :
    invertTargets (recI + rec) rows last (last - first) first = targets rec recCount first last := by
  have fits := strided_fits some whole round
  rw [invertTargets_eq _ le_rfl]
  · apply List.filter_congr
    intro target member
    rw [List.mem_range'_1] at member
    apply decide_eq_decide.mpr
    obtain same | before | behind := apart <;> omega
  · obtain same | before | behind := apart <;> omega

/-- A request adds to each of its cells what it gets from all source rows. -/
theorem request_sum (some : 0 < rows) (whole : rows ∣ recCount)
    (apart : Apart rows rec recCount recFirst recLast) (mat : RecWords) (coeff : ℕ → Gf16)
    (req : InvertRequest) (begins : recFirst ≤ req.recFirst)
    (filled : req.recFirst < req.recLast) (ends : req.recLast ≤ recLast)
    (outside : req.recFirst < rec ∨ rec + rows ≤ req.recFirst)
    (offset : req.coeffOffset = (req.recFirst - recFirst) * coeffWidth) (row col : ℕ) :
    ((invertLoop rows rec recCount coeffWidth coeff req).map (callTerm matrix mat row col)).sum =
      if (req.stripeStart ≤ col / matrix.stripeWords ∧ col / matrix.stripeWords < req.stripeEnd) ∧
          row ∈ targets rec recCount req.recFirst req.recLast then
        eliminated matrix mat coeff rec recCount recFirst coeffWidth row col
      else 0 := by
  have visited (recI : ℕ) (round : recI ∈ strided 0 recCount rows) :=
    invertTargets_visited some whole apart begins filled ends outside round
  have perRound (stripe recI : ℕ) (round : recI ∈ strided 0 recCount rows) :
      (((invertTargets (recI + rec) rows req.recLast (req.recLast - req.recFirst)
          req.recFirst).map fun curRec2 =>
            { stripe := stripe
              target := curRec2
              source := recI + rec
              count := rows
              coeffs := fun index => coeff (req.coeffOffset +
                ((curRec2 - req.recFirst) * coeffWidth + recI) + index) : MulAddCall }).map
          (callTerm matrix mat row col)).sum =
        if col / matrix.stripeWords = stripe ∧ row ∈ targets rec recCount req.recFirst req.recLast then
          ∑ index ∈ Finset.Ico recI (min (recI + rows) recCount),
            coeff ((row - recFirst) * coeffWidth + index) * mat (matrix.cell (rec + index) col)
        else 0 := by
    have fits := strided_fits some whole round
    rw [visited recI round, List.map_map, min_eq_left fits]
    have terms : (callTerm matrix mat row col ∘ fun curRec2 =>
        { stripe := stripe
          target := curRec2
          source := recI + rec
          count := rows
          coeffs := fun index => coeff (req.coeffOffset +
            ((curRec2 - req.recFirst) * coeffWidth + recI) + index) : MulAddCall }) =
        fun curRec2 => if row = curRec2 then
          (if col / matrix.stripeWords = stripe then ∑ index ∈ Finset.range rows,
            coeff (req.coeffOffset + ((curRec2 - req.recFirst) * coeffWidth + recI) + index) *
              mat (matrix.cell (recI + rec + index) col) else 0) else 0 := by
      funext curRec2
      simp only [Function.comp_apply, callTerm]
      by_cases own : row = curRec2
      · rw [if_pos own]
        exact if_congr (and_iff_right own) rfl rfl
      · rw [if_neg own, if_neg fun both => own both.1]
    rw [terms, sum_targets, Finset.sum_Ico_eq_sum_range, Nat.add_sub_cancel_left]
    by_cases member : row ∈ targets rec recCount req.recFirst req.recLast
    · rw [if_pos member]
      apply if_congr (and_iff_left member).symm _ rfl
      apply Finset.sum_congr rfl
      intro index _
      have place : req.coeffOffset + ((row - req.recFirst) * coeffWidth + recI) + index =
          (row - recFirst) * coeffWidth + (recI + index) := by
        have inside := (mem_targets.mp member).1
        have split : row - recFirst = (req.recFirst - recFirst) + (row - req.recFirst) := by omega
        rw [offset, split, Nat.add_mul]
        omega
      rw [place, Nat.add_comm recI rec, Nat.add_assoc rec recI index]
    · rw [if_neg member, if_neg fun both => member both.2]
  have rounds (stripe : ℕ) :
      (((strided 0 recCount rows).flatMap fun recI =>
          (invertTargets (recI + rec) rows req.recLast (req.recLast - req.recFirst)
            req.recFirst).map fun curRec2 =>
              { stripe := stripe
                target := curRec2
                source := recI + rec
                count := rows
                coeffs := fun index => coeff (req.coeffOffset +
                  ((curRec2 - req.recFirst) * coeffWidth + recI) + index) : MulAddCall }).map
          (callTerm matrix mat row col)).sum =
        if col / matrix.stripeWords = stripe then
          if row ∈ targets rec recCount req.recFirst req.recLast then
            eliminated matrix mat coeff rec recCount recFirst coeffWidth row col
          else 0
        else 0 := by
    rw [List.map_flatMap, sum_flatMap, List.map_congr_left (perRound stripe)]
    by_cases here : col / matrix.stripeWords = stripe ∧
        row ∈ targets rec recCount req.recFirst req.recLast
    · simp only [here.1, here.2, and_self, if_true]
      rw [sum_strided some (Nat.zero_le _), eliminated, Finset.range_eq_Ico]
    · simp only [if_neg here, List.map_const', List.sum_replicate, smul_zero]
      rw [← ite_and, if_neg here]
  rw [invertLoop, List.map_flatMap, sum_flatMap, List.map_congr_left fun stripe _ => rounds stripe,
    ← List.sum_toFinset _ List.nodup_range', Finset.sum_ite_eq, ← ite_and]
  apply if_congr _ rfl rfl
  rw [List.mem_toFinset, List.mem_range'_1]
  apply and_congr_left'
  omega

theorem targets_apart (apart : Apart rows rec recCount recFirst recLast) {first last : ℕ}
    (begins : recFirst ≤ first) (ends : last ≤ recLast) (multiple : rows ≤ recCount) :
    targets rec rows first last = targets rec recCount first last := by
  apply List.filter_congr
  intro target member
  rw [List.mem_range'_1] at member
  apply decide_eq_decide.mpr
  obtain same | before | behind := apart <;> omega

/-- Requests are for parts of the range. -/
theorem requests_range (filled : recFirst < recLast)
    (outside : recFirst < rec ∨ rec + rows ≤ recFirst) {req : InvertRequest}
    (member : req ∈ matrix.requests rows rec recFirst recLast coeffWidth) :
    recFirst ≤ req.recFirst ∧ req.recFirst < req.recLast ∧ req.recLast ≤ recLast ∧
      (req.recFirst < rec ∨ rec + rows ≤ req.recFirst) := by
  rw [requests] at member
  split at member
  · obtain rfl := List.mem_singleton.mp member
    exact ⟨le_rfl, filled, le_rfl, outside⟩
  split at member
  · obtain ⟨worker, -, rfl⟩ := List.mem_map.mp member
    exact ⟨le_rfl, filled, le_rfl, outside⟩
  · obtain ⟨stripe, -, sent⟩ := List.mem_flatMap.mp member
    obtain ⟨part, partMember, rfl⟩ := List.mem_map.mp sent
    exact (rowParts_spec (lt_of_lt_of_le (by decide) (le_max_right _ _)) _ le_rfl
      (by omega)).2 part partMember

/-- The calls of an elimination have source rows, and targets that are none. -/
theorem requests_calls (some : 0 < rows) (whole : rows ∣ recCount)
    (apart : Apart rows rec recCount recFirst recLast) (filled : recFirst < recLast)
    (outside : recFirst < rec ∨ rec + rows ≤ recFirst) (coeff : ℕ → Gf16) {call : MulAddCall}
    (member : call ∈ (matrix.requests rows rec recFirst recLast coeffWidth).flatMap
      (invertLoop rows rec recCount coeffWidth coeff)) :
    call.target ∈ targets rec recCount recFirst recLast ∧ rec ≤ call.source ∧
      call.source + call.count ≤ rec + recCount := by
  obtain ⟨req, sent, inRequest⟩ := List.mem_flatMap.mp member
  obtain ⟨begins, nonempty, ends, apartRequest⟩ := requests_range filled outside sent
  obtain ⟨stripe, -, inStripe⟩ := List.mem_flatMap.mp inRequest
  obtain ⟨recI, round, inRound⟩ := List.mem_flatMap.mp inStripe
  obtain ⟨target, visited, rfl⟩ := List.mem_map.mp inRound
  have fits := strided_fits some whole round
  rw [invertTargets_visited some whole apart begins nonempty ends apartRequest round, mem_targets]
    at visited
  refine ⟨mem_targets.mpr ⟨by dsimp only; omega, visited.2⟩, ?_, ?_⟩
  · exact Nat.le_add_left rec recI
  · dsimp only
    omega

/-- The requests of an elimination have every cell once. -/
theorem requests_sum (some : 0 < rows) (multiple : rows ≤ recCount) (whole : rows ∣ recCount)
    (apart : Apart rows rec recCount recFirst recLast) (filled : recFirst < recLast)
    (outside : recFirst < rec ∨ rec + rows ≤ recFirst) (mat : RecWords) (coeff : ℕ → Gf16)
    {row col : ℕ} (inside : col / matrix.stripeWords < matrix.numStripes) :
    (((matrix.requests rows rec recFirst recLast coeffWidth).flatMap
        (invertLoop rows rec recCount coeffWidth coeff)).map (callTerm matrix mat row col)).sum =
      if row ∈ targets rec recCount recFirst recLast then
        eliminated matrix mat coeff rec recCount recFirst coeffWidth row col
      else 0 := by
  generalize total_eq : eliminated matrix mat coeff rec recCount recFirst coeffWidth row col = total
  rw [List.map_flatMap, sum_flatMap, requests]
  by_cases alone : matrix.workers = 0
  · rw [if_pos alone, List.map_singleton, List.sum_singleton,
      request_sum some whole apart mat coeff ⟨0, matrix.numStripes, recFirst, recLast, 0⟩ le_rfl filled
        le_rfl outside (by simp only [Nat.sub_self, Nat.zero_mul]), total_eq]
    exact if_congr (and_iff_right ⟨Nat.zero_le _, inside⟩) rfl rfl
  rw [if_neg alone]
  by_cases many : matrix.numStripes ≥ matrix.workers
  · rw [if_pos many, List.map_map, Function.comp_def]
    have shares := matrix.method.share_monotone matrix.numStripes matrix.workers
    have each (worker : ℕ) : ((invertLoop rows rec recCount coeffWidth coeff
        ⟨matrix.method.share matrix.numStripes matrix.workers worker,
          matrix.method.share matrix.numStripes matrix.workers (worker + 1), recFirst, recLast, 0⟩).map
            (callTerm matrix mat row col)).sum =
        ∑ stripe ∈ Finset.Ico (matrix.method.share matrix.numStripes matrix.workers worker)
          (matrix.method.share matrix.numStripes matrix.workers (worker + 1)),
            if col / matrix.stripeWords = stripe then
              (if row ∈ targets rec recCount recFirst recLast then total else 0) else 0 := by
      rw [request_sum some whole apart mat coeff _ le_rfl filled le_rfl outside
        (by simp only [Nat.sub_self, Nat.zero_mul]), Finset.sum_ite_eq, total_eq, ← ite_and]
      exact if_congr (and_congr_left' Finset.mem_Ico.symm) rfl rfl
    rw [List.map_congr_left fun worker _ => each worker, ← List.sum_toFinset _ List.nodup_range,
      List.toFinset_range, sum_parts shares, matrix.method.share_first,
      matrix.method.share_last _ _ (Nat.pos_of_ne_zero alone), Finset.sum_ite_eq,
      if_pos (Finset.mem_Ico.mpr ⟨Nat.zero_le _, inside⟩)]
  · rw [if_neg many, List.map_flatMap, sum_flatMap]
    have each (numRows stripe : ℕ) (pos : 0 < numRows) : (((rowParts rec rows recLast numRows
        (recLast - recFirst) recFirst).map fun part : ℕ × ℕ =>
          (⟨stripe, stripe + 1, part.1, part.2, (part.1 - recFirst) * coeffWidth⟩ :
            InvertRequest)).map fun req =>
              ((invertLoop rows rec recCount coeffWidth coeff req).map
                (callTerm matrix mat row col)).sum).sum =
        if col / matrix.stripeWords = stripe then
          (if row ∈ targets rec recCount recFirst recLast then total else 0) else 0 := by
      obtain ⟨together, parts⟩ := @rowParts_spec rec rows recFirst recLast numRows pos
        (recLast - recFirst) le_rfl (by omega)
      rw [List.map_map]
      have perPart : ∀ part ∈ rowParts rec rows recLast numRows (recLast - recFirst) recFirst,
          ((fun req => ((invertLoop rows rec recCount coeffWidth coeff req).map
            (callTerm matrix mat row col)).sum) ∘ fun part : ℕ × ℕ =>
              (⟨stripe, stripe + 1, part.1, part.2, (part.1 - recFirst) * coeffWidth⟩ :
                InvertRequest)) part =
            ((targets rec rows part.1 part.2).map fun target =>
              if row = target then (if col / matrix.stripeWords = stripe then total else 0)
              else 0).sum := by
        intro part member
        obtain ⟨begins, nonempty, ends, apartPart⟩ := parts part member
        rw [Function.comp_apply, request_sum some whole apart mat coeff _ begins nonempty ends apartPart
          rfl, total_eq, sum_targets, targets_apart apart begins ends multiple, ← ite_and]
        apply if_congr _ rfl rfl
        rw [and_comm]
        apply and_congr_right'
        change (stripe ≤ col / matrix.stripeWords ∧ col / matrix.stripeWords < stripe + 1) ↔ _
        omega
      rw [List.map_congr_left perPart, ← sum_flatMap, ← List.map_flatMap, together, sum_targets,
        targets_apart apart le_rfl le_rfl multiple, ← ite_and, ← ite_and]
      exact if_congr and_comm rfl rfl
    have pos (numRows : ℕ) : 0 < max numRows MIN_THREAD_REC :=
      lt_of_lt_of_le (by decide) (le_max_right _ _)
    dsimp only
    rw [List.map_congr_left fun stripe _ => each _ stripe (pos _), ← List.sum_toFinset _ List.nodup_range,
      List.toFinset_range, Finset.sum_ite_eq, if_pos (Finset.mem_range.mpr inside)]

end Requests

/-! ## Levels of a range -/

section Ranges

variable {matrix : Galois16RecMatrix} (shaped : matrix.Shaped) {recFirst recLast recCount rec : ℕ}

include shaped

/-- Coefficients of several rows are taken out one row after the other. -/
theorem takeRows_cell {rows : List ℕ} (inside : ∀ row ∈ rows, row < matrix.numRec)
    (first base count : ℕ) (taken : (ℕ → Gf16) × RecWords) {other : ℕ}
    (otherInside : other < matrix.numRec) (col : ℕ) :
    (rows.foldl (fun taken r => matrix.takeCoeffs r first ((r - base) * count) count taken) taken).2
        (matrix.cell other col) =
      if other ∈ rows ∧ first ≤ col ∧ col < first + count then 0
      else taken.2 (matrix.cell other col) := by
  induction rows generalizing taken with
  | nil =>
    rw [if_neg fun found => List.not_mem_nil found.1]
    rfl
  | cons row rest ih =>
    obtain ⟨coeff, mat⟩ := taken
    rw [List.foldl_cons, ih fun row member => inside row (List.mem_cons_of_mem _ member),
      takeCoeffs_cell shaped (inside row List.mem_cons_self) _ _ _ _ _ otherInside]
    by_cases range : first ≤ col ∧ col < first + count
    · by_cases later : other ∈ rest
      · rw [if_pos ⟨later, range⟩, if_pos ⟨List.mem_cons_of_mem _ later, range⟩]
      · rw [if_neg fun found => later found.1]
        apply if_congr _ rfl rfl
        rw [List.mem_cons, or_iff_left later]
    · rw [if_neg fun found => range found.2, if_neg fun found => range found.2,
        if_neg fun found => range found.2]

theorem takeRows_coeff {rows : List ℕ} (inside : ∀ row ∈ rows, row < matrix.numRec)
    (distinct : rows.Nodup) (first : ℕ) {base count : ℕ} (begins : ∀ row ∈ rows, base ≤ row)
    (taken : (ℕ → Gf16) × RecWords) {row index : ℕ} (known : base ≤ row) (short : index < count) :
    (rows.foldl (fun taken r => matrix.takeCoeffs r first ((r - base) * count) count taken) taken).1
        ((row - base) * count + index) =
      if row ∈ rows then taken.2 (matrix.cell row (first + index))
      else taken.1 ((row - base) * count + index) := by
  induction rows generalizing taken with
  | nil => rfl
  | cons head rest ih =>
    obtain ⟨coeff, mat⟩ := taken
    obtain ⟨new, distinct⟩ := List.nodup_cons.mp distinct
    have headInside := inside head List.mem_cons_self
    rw [List.foldl_cons, ih (fun row member => inside row (List.mem_cons_of_mem _ member))
      distinct fun row member => begins row (List.mem_cons_of_mem _ member)]
    by_cases later : row ∈ rest
    · have other : row ≠ head := fun same => new (same ▸ later)
      rw [if_pos later, if_pos (List.mem_cons_of_mem _ later),
        takeCoeffs_cell shaped headInside _ _ _ _ _ (inside row (List.mem_cons_of_mem _ later)),
        if_neg fun found => other found.1]
    · rw [if_neg later, takeCoeffs_coeff shaped headInside]
      by_cases same : row = head
      · rw [if_pos ⟨by rw [same]; exact Nat.le_add_right _ _, by rw [same]; omega⟩,
          if_pos (same ▸ List.mem_cons_self), same, Nat.add_sub_cancel_left]
      · rw [if_neg, if_neg fun member => (List.mem_cons.mp member).elim same later]
        rintro ⟨lower, upper⟩
        have pos : 0 < count := Nat.zero_lt_of_lt short
        have headBegins := begins head List.mem_cons_self
        have quotient : ((row - base) * count + index) / count = row - base := by
          rw [Nat.mul_comm, Nat.mul_add_div pos, Nat.div_eq_of_lt short, Nat.add_zero]
        have headQuotient : ((row - base) * count + index) / count = head - base := by
          rw [Nat.div_eq_iff pos]
          omega
        omega

/-- The rows of a range that are no source rows go up to the level of the source rows, in whatever
order the calls happen. -/
theorem eliminate_levelled {coefficients : ℕ → ℕ → Gf16} {level : ℕ → ℕ} {mat : RecWords} {rows : ℕ}
    (left : ℕ) (some : 0 < rows) (whole : rows ∣ recCount) (pos : 0 < recCount)
    (apart : Apart rows rec recCount recFirst recLast) (filled : recFirst < recLast)
    (outside : recFirst < rec ∨ rec + rows ≤ recFirst) (sourcesInside : rec + recCount ≤ matrix.numRec)
    (ends : recLast ≤ matrix.numRec) (levelled : matrix.Levelled coefficients level mat)
    (sources : ∀ index < recCount, level (rec + index) = rec + recCount)
    (starts : ∀ row ∈ targets rec recCount recFirst recLast, level row = rec) :
    matrix.Levelled coefficients
      (fun row => if row ∈ targets rec recCount recFirst recLast then rec + recCount else level row)
      (matrix.applyRows left rows rec recCount recFirst recLast recCount
        (matrix.fillCoeffs recCount recFirst recLast rec recCount mat).1
        (matrix.fillCoeffs recCount recFirst recLast rec recCount mat).2) := by
  have visited : fillTargets rec recCount recLast (recLast - recFirst) recFirst =
      targets rec recCount recFirst recLast := by
    apply fillTargets_eq pos _ le_rfl
    obtain same | before | behind := apart <;> omega
  have targetsInside : ∀ row ∈ targets rec recCount recFirst recLast, row < matrix.numRec := by
    intro row member
    exact lt_of_lt_of_le (mem_targets.mp member).1.2 ends
  have filledCells {row : ℕ} (inside : row < matrix.numRec) (col : ℕ) :
      (matrix.fillCoeffs recCount recFirst recLast rec recCount mat).2 (matrix.cell row col) =
        if row ∈ targets rec recCount recFirst recLast ∧ matrix.validCount + rec ≤ col ∧
          col < matrix.validCount + rec + recCount then 0 else mat (matrix.cell row col) := by
    rw [fillCoeffs, visited]
    exact takeRows_cell shaped targetsInside _ _ _ _ inside col
  intro row inside col known
  have calls := matrix.method.order_perm left
    ((matrix.requests rows rec recFirst recLast recCount).flatMap (invertLoop rows rec recCount recCount
      (matrix.fillCoeffs recCount recFirst recLast rec recCount mat).1))
  have ranges (call : MulAddCall) (member : call ∈ matrix.method.order left
      ((matrix.requests rows rec recFirst recLast recCount).flatMap (invertLoop rows rec recCount
        recCount (matrix.fillCoeffs recCount recFirst recLast rec recCount mat).1))) :=
    requests_calls some whole apart filled outside _ (calls.mem_iff.mp member)
  rw [applyRows, calls_cell shaped _ _ _ _ _ inside]
  · have sums := @requests_sum matrix rows rec recCount recFirst recLast recCount some
      (Nat.le_of_dvd pos whole) whole apart filled outside
      (matrix.fillCoeffs recCount recFirst recLast rec recCount mat).2
      (matrix.fillCoeffs recCount recFirst recLast rec recCount mat).1 row col
      (stripe_lt shaped known)
    have ordered := (calls.map (callTerm matrix
      (matrix.fillCoeffs recCount recFirst recLast rec recCount mat).2 row col)).sum_eq
    rw [sums] at ordered
    refine (congrArg (_ + ·) ordered).trans ?_
    rw [filledCells inside]
    dsimp only
    by_cases target : row ∈ targets rec recCount recFirst recLast
    · have place := mem_targets.mp target
      rw [if_pos target, if_pos target, exchanged_block recCount (by omega), levelled row inside col known,
        starts row target, eliminated]
      congr 1
      · apply if_congr _ rfl rfl
        rw [and_iff_right target]
      · apply Finset.sum_congr rfl
        intro index below
        have short := Finset.mem_range.mp below
        have coeff : (matrix.fillCoeffs recCount recFirst recLast rec recCount mat).1
            ((row - recFirst) * recCount + index) =
              mat (matrix.cell row (matrix.validCount + rec + index)) := by
          rw [fillCoeffs, visited, takeRows_coeff shaped targetsInside targets_nodup _
            (fun row member => (mem_targets.mp member).1.1) _ place.1.1 short, if_pos target]
        have source : rec + index ∉ targets rec recCount recFirst recLast := by
          rw [mem_targets]
          omega
        rw [coeff, filledCells (by omega), if_neg fun found => source found.1,
          levelled row inside _ (by omega), starts row target, levelled _ (by omega) _ known,
          sources index short]
    · rw [if_neg target, if_neg target, add_zero, if_neg fun found => target found.1]
      exact levelled row inside col known
  · intro call member
    exact targetsInside _ (ranges call member).1
  · intro call member
    exact (ranges call member).2.2.trans sourcesInside
  · intro call member other otherMember
    have target := mem_targets.mp (ranges call member).1
    have source := (ranges other otherMember).2
    omega

end Ranges

end Galois16RecMatrix

end Par3
