import Par3.InvertGroups

/-!
# Whole inversions

A row group goes up to the level behind it, and then all other rows do. Whatever the sizes of the
groups, an inversion ends with every row at the last level, or with the first pivot that is zero.
-/
namespace Par3

open BinaryField Word Interleaving PivotExchange

namespace Galois16RecMatrix

variable {matrix : Galois16RecMatrix} (shaped : matrix.Shaped) {coefficients : ℕ → ℕ → Gf16}
  {mat : RecWords} {rows : ℕ}

/-! ## A row group -/

/-- The rows of a row group are ahead of the others. -/
def groupLevel (recStart size ahead row : ℕ) : ℕ :=
  if recStart ≤ row ∧ row < recStart + size then ahead else recStart

theorem Levelled.congr {level other : ℕ → ℕ} (levelled : matrix.Levelled coefficients level mat)
    (same : ∀ row < matrix.numRec, level row = other row) :
    matrix.Levelled coefficients other mat := by
  intro row inside col known
  rw [← same row inside]
  exact levelled row inside col known

/-- Offsets in a group are rows of the matrix. -/
theorem Scales.mapError {rec count : ℕ} {post : RecWords → Prop}
    {result : Except (ℕ × RecWords) RecWords}
    (scales : Scales matrix coefficients rec 0 count post result) :
    Scales matrix coefficients 0 rec (rec + count) post
      (result.mapError fun (row, mat) => (rec + row, mat)) := by
  cases result with
  | error failed =>
    obtain ⟨row, left⟩ := failed
    obtain ⟨range, zero, nonzero⟩ := scales
    refine ⟨⟨Nat.le_add_right _ _, Nat.add_lt_add_left range.2 rec⟩, ?_, ?_⟩
    · rw [Nat.zero_add]
      exact zero
    · intro earlier above below
      have other := nonzero (earlier - rec) (Nat.zero_le _) (by omega)
      rw [Nat.add_sub_cancel' above] at other
      rw [Nat.zero_add]
      exact other
  | ok next =>
    obtain ⟨nonzero, holds⟩ := scales
    refine ⟨?_, holds⟩
    intro row above below
    have other := nonzero (row - rec) (Nat.zero_le _) (by omega)
    rw [Nat.add_sub_cancel' above] at other
    rw [Nat.zero_add]
    exact other

section Group

variable {recStart size rec : ℕ}

include shaped

/-- A group of rows is scaled, and the other rows of its row group follow. -/
theorem normalizeRows_scales (left : ℕ) (some : 1 ≤ rows) (few : rows ≤ 6) (lower : recStart ≤ rec)
    (upper : rec + rows ≤ size + recStart) (fits : size + recStart ≤ matrix.numRec)
    (levelled : matrix.Levelled coefficients (groupLevel recStart size rec) mat) :
    Scales matrix coefficients 0 rec (rec + rows)
      (matrix.Levelled coefficients (groupLevel recStart size (rec + rows)))
      (matrix.normalizeRows left rows recStart size mat rec) := by
  have start : matrix.Levelled coefficients
      (within rec rows (fun _ => rec) (groupLevel recStart size rec)) mat := by
    apply levelled.congr
    intro row _
    simp only [within, groupLevel]
    split_ifs <;> omega
  have scaled := (scaleRows_scales shaped (by omega) some few start).mapError
  rw [normalizeRows]
  refine scaled.bind (Nat.le_add_right _ _) le_rfl ?_
  intro mat levelled
  by_cases alone : (if recStart = rec then recStart + rows else recStart) = size + recStart
  · rw [if_pos alone]
    refine Scales.ok (levelled.congr ?_)
    intro row _
    simp only [within, groupLevel]
    split_ifs at alone ⊢ <;> omega
  · rw [if_neg alone]
    refine Scales.ok ?_
    have filled : (if recStart = rec then recStart + rows else recStart) < size + recStart := by
      split_ifs at alone ⊢ <;> omega
    have eliminated := @eliminate_levelled matrix shaped
      (if recStart = rec then recStart + rows else recStart) (size + recStart) rows rec coefficients _
      mat rows left some (dvd_refl rows) some (.inl rfl) filled (by split_ifs <;> omega) (by omega)
      fits levelled (by
        intro index below
        rw [within_at _ _ below]) (by
        intro row member
        have place := mem_targets.mp member
        rw [within, if_neg place.2, groupLevel, if_pos]
        split_ifs at place <;> omega)
    apply eliminated.congr
    intro row _
    simp only [mem_targets, within, groupLevel]
    split_ifs <;> omega

/-- All groups of a row group. -/
theorem normalizeGroup_scales (left : ℕ) (some : 1 ≤ rows) (few : rows ≤ 6)
    (fits : size + recStart ≤ matrix.numRec) (count : ℕ) {start : ℕ} (lower : recStart ≤ start)
    (whole : start + rows * count = size + recStart)
    (levelled : matrix.Levelled coefficients (groupLevel recStart size start) mat) :
    Scales matrix coefficients 0 start (size + recStart)
      (matrix.Levelled coefficients (groupLevel recStart size (size + recStart)))
      ((strided start (size + recStart) rows).foldlM (matrix.normalizeRows left rows recStart size)
        mat) := by
  induction count generalizing start mat with
  | zero =>
    obtain rfl : start = size + recStart := by omega
    rw [strided_of_le le_rfl]
    exact Scales.ok levelled
  | succ count ih =>
    rw [Nat.mul_succ] at whole
    rw [strided_of_lt some (by omega), List.foldlM_cons]
    refine (normalizeRows_scales shaped left some few lower (by omega) fits levelled).bind
      (Nat.le_add_right _ _) (by omega) ?_
    intro mat levelled
    exact ih (by omega) (by omega) levelled

/-- The levels while a row group is applied to the others. -/
def appliedLevel (recStart size done row : ℕ) : ℕ :=
  if (recStart ≤ row ∧ row < recStart + size) ∨ row < done then recStart + size else recStart

theorem applyGroup_levelled (left : ℕ) (some : 0 < rows) (whole : rows ∣ size) (filled : 0 < size)
    (fits : recStart + size ≤ matrix.numRec) (groups : 0 < matrix.rowGroupSize) (fuel : ℕ)
    {recGroup : ℕ} (enough : matrix.numRec - recGroup ≤ fuel)
    (outside : recGroup ≤ recStart ∨ recStart + size ≤ recGroup)
    (levelled : matrix.Levelled coefficients (appliedLevel recStart size recGroup) mat) :
    matrix.Levelled coefficients (fun _ => recStart + size)
      (matrix.applyGroup left rows recStart size fuel recGroup mat) := by
  have finished (done : matrix.numRec ≤ recGroup) :
      matrix.Levelled coefficients (fun _ => recStart + size) mat := by
    apply levelled.congr
    intro row inside
    rw [appliedLevel, if_pos (.inr (by omega))]
  induction fuel generalizing recGroup mat with
  | zero =>
    rw [applyGroup]
    exact finished (by omega)
  | succ fuel ih =>
    rw [applyGroup]
    by_cases more : recGroup < matrix.numRec
    · rw [if_pos more]
      have next {recGroup : ℕ} {mat : RecWords} (enough : matrix.numRec - recGroup ≤ fuel)
          (outside : recGroup ≤ recStart ∨ recStart + size ≤ recGroup)
          (levelled : matrix.Levelled coefficients (appliedLevel recStart size recGroup) mat) :
          matrix.Levelled coefficients (fun _ => recStart + size)
            (matrix.applyGroup left rows recStart size fuel recGroup mat) := by
        apply ih enough outside levelled
        intro done
        apply levelled.congr
        intro row inside
        rw [appliedLevel, if_pos (.inr (by omega))]
      by_cases own : recGroup = recStart
      · rw [if_pos own]
        apply next (by omega) (by omega)
        apply levelled.congr
        intro row _
        simp only [appliedLevel]
        split_ifs <;> omega
      · rw [if_neg own]
        dsimp only
        generalize count_eq : (if recGroup < recStart ∧
            recGroup + min (matrix.numRec - recGroup) matrix.rowGroupSize > recStart then
              recStart - recGroup else min (matrix.numRec - recGroup) matrix.rowGroupSize) = count
        have sizes : 0 < count ∧ recGroup + count ≤ matrix.numRec ∧
            (recGroup + count ≤ recStart ∨ recStart + size ≤ recGroup) := by
          split_ifs at count_eq <;> omega
        obtain ⟨pos, inside, apart⟩ := sizes
        apply next (by omega) (by omega)
        have eliminated := @eliminate_levelled matrix shaped recGroup (recGroup + count) size recStart
          coefficients _ mat rows left some whole filled (.inr (by omega)) (by omega)
          (by
            have multiple := Nat.le_of_dvd filled whole
            omega) fits inside levelled (by
            intro index below
            rw [appliedLevel, if_pos (.inl (by omega))]) (by
            intro row member
            have place := mem_targets.mp member
            rw [appliedLevel, if_neg (by omega)])
        apply eliminated.congr
        intro row _
        simp only [mem_targets, appliedLevel]
        split_ifs <;> omega
    · rw [if_neg more]
      exact finished (Nat.not_lt.mp more)

end Group

/-! ## All row groups -/

/-- The outcome of processing rows from one on: all are at the level that is reached, or the first
pivot from there on that is zero is found. -/
def Processed (matrix : Galois16RecMatrix) (coefficients : ℕ → ℕ → Gf16) (first : ℕ) :
    Except (ℕ × RecWords) (ℕ × RecWords) → Prop
  | .ok (rec, next) =>
    (first ≤ rec ∧ rec ≤ matrix.numRec) ∧
      (∀ row, first ≤ row → row < rec → pivot coefficients matrix.validCount row ≠ 0) ∧
        matrix.Levelled coefficients (fun _ => rec) next
  | .error (row, _) =>
    (first ≤ row ∧ row < matrix.numRec) ∧ pivot coefficients matrix.validCount row = 0 ∧
      ∀ earlier, first ≤ earlier → earlier < row → pivot coefficients matrix.validCount earlier ≠ 0

/-- What is processed later comes behind. -/
theorem Processed.trans {first middle : ℕ} {result : Except (ℕ × RecWords) (ℕ × RecWords)}
    (lower : first ≤ middle)
    (nonzero : ∀ row, first ≤ row → row < middle → pivot coefficients matrix.validCount row ≠ 0)
    (later : Processed matrix coefficients middle result) :
    Processed matrix coefficients first result := by
  have both {row upper : ℕ} (rest : ∀ row, middle ≤ row → row < upper →
      pivot coefficients matrix.validCount row ≠ 0) (above : first ≤ row) (below : row < upper) :
      pivot coefficients matrix.validCount row ≠ 0 := by
    by_cases before : row < middle
    · exact nonzero row above before
    · exact rest row (Nat.not_lt.mp before) below
  cases result with
  | error failed =>
    obtain ⟨range, zero, rest⟩ := later
    exact ⟨⟨lower.trans range.1, range.2⟩, zero, fun _ above below => both rest above below⟩
  | ok reached =>
    obtain ⟨range, rest, levelled⟩ := later
    exact ⟨⟨lower.trans range.1, range.2⟩, fun _ above below => both rest above below, levelled⟩

section All

include shaped

/-- Groups of so many rows are processed until fewer are left. -/
theorem processRows_processed (left : ℕ) (some : 1 ≤ rows) (few : rows ≤ 6)
    (fitting : rows ≤ matrix.numRec) (grouped : rows ≤ matrix.rowGroupSize) (fuel : ℕ) {rec : ℕ}
    (enough : matrix.numRec - rec ≤ fuel) (inside : rec ≤ matrix.numRec)
    (levelled : matrix.Levelled coefficients (fun _ => rec) mat) :
    Processed matrix coefficients rec (matrix.processRows left rows fuel (rec, mat)) ∧
      ∀ last, matrix.processRows left rows fuel (rec, mat) = .ok last →
        matrix.numRec - last.1 < rows := by
  induction fuel generalizing rec mat with
  | zero =>
    rw [processRows]
    refine ⟨⟨⟨le_rfl, inside⟩, ?_, levelled⟩, ?_⟩
    · intro row above below
      exact absurd below (Nat.not_lt.mpr above)
    · rintro last same
      cases same
      dsimp only
      omega
  | succ fuel ih =>
    rw [processRows]
    by_cases more : rec ≤ matrix.numRec - rows
    · rw [if_pos more]
      dsimp only
      generalize size_eq : (if matrix.numRec - rec < matrix.rowGroupSize / rows * rows then
        matrix.numRec - rec - (matrix.numRec - rec) % rows
        else matrix.rowGroupSize / rows * rows) = size
      -- a row group is a positive number of whole groups
      have sizes : 0 < size ∧ rec + size ≤ matrix.numRec ∧ rows ∣ size := by
        have groups := Nat.div_add_mod matrix.rowGroupSize rows
        have rest := Nat.div_add_mod (matrix.numRec - rec) rows
        have groupsMod := Nat.mod_lt matrix.rowGroupSize some
        have restMod := Nat.mod_lt (matrix.numRec - rec) some
        rw [Nat.mul_comm] at groups rest
        split_ifs at size_eq
        · refine ⟨by omega, by omega, ?_⟩
          rw [← size_eq]
          exact Nat.dvd_sub_mod _
        · refine ⟨by omega, by omega, ?_⟩
          rw [← size_eq]
          exact Nat.dvd_mul_left _ _
      obtain ⟨filled, fits, count, whole⟩ := sizes
      have start : matrix.Levelled coefficients (groupLevel rec size rec) mat := by
        apply levelled.congr
        intro row _
        rw [groupLevel, ite_self]
      have group := normalizeGroup_scales shaped left some few (by omega) count le_rfl (by omega) start
      cases result : (strided rec (size + rec) rows).foldlM
          (matrix.normalizeRows left rows rec size) mat with
      | error failed =>
        rw [result] at group
        obtain ⟨row, left⟩ := failed
        obtain ⟨range, zero, nonzero⟩ := group
        rw [Nat.zero_add] at zero
        refine ⟨⟨⟨range.1, by omega⟩, zero, ?_⟩, ?_⟩
        · intro earlier above below
          have other := nonzero earlier above below
          rw [Nat.zero_add] at other
          exact other
        · intro last same
          cases same
      | ok next =>
        rw [result] at group
        obtain ⟨nonzero, reached⟩ := group
        have applied := @applyGroup_levelled matrix shaped coefficients next rows rec size left some
          ⟨count, whole⟩ filled fits (by omega) matrix.numRec 0 (by omega) (.inl (Nat.zero_le _)) (by
            apply reached.congr
            intro row _
            simp only [groupLevel, appliedLevel]
            split_ifs <;> omega)
        obtain ⟨processed, last⟩ := ih (by omega) fits applied
        constructor
        · refine Processed.trans (Nat.le_add_right rec size) ?_ processed
          intro row above below
          have other := nonzero row above (by omega)
          rw [Nat.zero_add] at other
          exact other
        · exact last
    · rw [if_neg more]
      refine ⟨⟨⟨le_rfl, inside⟩, ?_, levelled⟩, ?_⟩
      · intro row above below
        exact absurd below (Nat.not_lt.mpr above)
      · rintro last same
        cases same
        dsimp only
        omega

theorem INVERT_GROUP_processed (left : ℕ) (some : 1 ≤ rows) (few : rows ≤ 6)
    (grouped : rows ≤ matrix.method.idealInputMultiple → rows ≤ matrix.numRec →
      rows ≤ matrix.rowGroupSize) {rec : ℕ} (inside : rec ≤ matrix.numRec)
    (levelled : matrix.Levelled coefficients (fun _ => rec) mat) :
    Processed matrix coefficients rec (matrix.INVERT_GROUP left (rec, mat) rows) := by
  rw [INVERT_GROUP]
  split
  · next fits =>
    exact (processRows_processed shaped left some few fits.2 (grouped fits.1 fits.2) _ (by omega) inside
      levelled).1
  · refine ⟨⟨le_rfl, inside⟩, ?_, levelled⟩
    intro row above below
    exact absurd below (Nat.not_lt.mpr above)

theorem INVERT_GROUPs_processed (left : ℕ)
    (grouped : ∀ rows ≤ matrix.method.idealInputMultiple, rows ≤ 6 → rows ≤ matrix.numRec →
      rows ≤ matrix.rowGroupSize) (sizes : List ℕ) (few : ∀ rows ∈ sizes, 1 ≤ rows ∧ rows ≤ 6)
    {rec : ℕ} (inside : rec ≤ matrix.numRec)
    (levelled : matrix.Levelled coefficients (fun _ => rec) mat) :
    Processed matrix coefficients rec
      (sizes.foldlM (matrix.INVERT_GROUP left) (rec, mat)) := by
  induction sizes generalizing rec mat with
  | nil =>
    refine ⟨⟨le_rfl, inside⟩, ?_, levelled⟩
    intro row above below
    exact absurd below (Nat.not_lt.mpr above)
  | cons rows rest ih =>
    rw [List.foldlM_cons]
    obtain ⟨some, most⟩ := few rows List.mem_cons_self
    have first := INVERT_GROUP_processed shaped left some most
      (fun ideal fits => grouped rows ideal most fits) inside levelled
    cases result : matrix.INVERT_GROUP left (rec, mat) rows with
    | error failed =>
      rw [result] at first
      exact first
    | ok next =>
      rw [result] at first
      obtain ⟨rec, mat⟩ := next
      obtain ⟨range, nonzero, levelled⟩ := first
      exact (ih (fun rows member => few rows (List.mem_cons_of_mem _ member)) range.2
        levelled).trans range.1 nonzero

/-- An inversion has every row at the last level, or the first pivot that is zero. -/
theorem invert_processed (left : ℕ)
    (grouped : ∀ rows ≤ matrix.method.idealInputMultiple, rows ≤ 6 → rows ≤ matrix.numRec →
      rows ≤ matrix.rowGroupSize)
    (levelled : matrix.Levelled coefficients (fun _ => 0) mat) :
    Processed matrix coefficients 0
        ([6, 5, 4, 3, 2, 1].foldlM (matrix.INVERT_GROUP left) (0, mat)) ∧
      ∀ last, [6, 5, 4, 3, 2, 1].foldlM (matrix.INVERT_GROUP left) (0, mat) = .ok last →
        last.1 = matrix.numRec := by
  have whole := INVERT_GROUPs_processed shaped left grouped [6, 5, 4, 3, 2, 1] (by decide)
    (Nat.zero_le _) levelled
  refine ⟨whole, ?_⟩
  intro last reached
  have before := INVERT_GROUPs_processed shaped left grouped [6, 5, 4, 3, 2] (by decide)
    (Nat.zero_le _) levelled
  have split : [6, 5, 4, 3, 2, 1].foldlM (matrix.INVERT_GROUP left) (0, mat) =
      [6, 5, 4, 3, 2].foldlM (matrix.INVERT_GROUP left) (0, mat) >>= fun state =>
        matrix.INVERT_GROUP left state 1 := by
    rw [show [6, 5, 4, 3, 2, 1] = [6, 5, 4, 3, 2] ++ [1] from rfl, List.foldlM_append]
    simp only [List.foldlM_cons, List.foldlM_nil, bind_pure]
  rw [split] at reached
  cases result : [6, 5, 4, 3, 2].foldlM (matrix.INVERT_GROUP left) (0, mat) with
  | error failed =>
    rw [result] at reached
    cases reached
  | ok next =>
    rw [result] at reached before
    obtain ⟨rec, mat⟩ := next
    obtain ⟨range, -, levelled⟩ := before
    change matrix.INVERT_GROUP left (rec, mat) 1 = .ok last at reached
    have some := matrix.method.multiple_pos
    by_cases none : matrix.numRec = 0
    · rw [INVERT_GROUP, if_neg (by omega)] at reached
      cases reached
      dsimp only
      omega
    · rw [INVERT_GROUP, if_pos ⟨some, Nat.one_le_iff_ne_zero.mpr none⟩] at reached
      obtain ⟨processed, few⟩ := processRows_processed shaped left le_rfl (by decide)
        (Nat.one_le_iff_ne_zero.mpr none)
        (grouped 1 some (by decide) (Nat.one_le_iff_ne_zero.mpr none)) matrix.numRec (by omega) range.2
        levelled
      rw [reached] at processed
      have short := few last reached
      have inside := processed.1.2
      omega

end All

end Galois16RecMatrix

end Par3
