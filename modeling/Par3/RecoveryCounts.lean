import Par3.RecoveryExponents

/-!
# The number of recovery files

A plan that succeeds has the number of volumes that was asked for, but for two cases: volumes of the same
number of slices, where rounding up can use up the slices before the last volume, and numbers that wrap as
32-bit integers. The search for volumes that grow gives up at the first start with fewer volumes. With an
offset a later start can have more of them, without one it cannot.
-/
namespace Par3

namespace PAR2Gen

/-! ## Volumes that grow -/

/-- The first slice of a volume, where volumes double from a start up to the maximum. -/
def pow2Start (outputFileMaxSlices start : ℕ) : ℕ → ℕ
  | 0 => 0
  | k + 1 => pow2Start outputFileMaxSlices start k + min (start * 2 ^ k) outputFileMaxSlices

/-- A volume has slices from the offset on. -/
def pow2Kept (recoverySlices recoveryOffset outputFileMaxSlices start k : ℕ) : Bool :=
  max (pow2Start outputFileMaxSlices start k) recoveryOffset <
    min (pow2Start outputFileMaxSlices start (k + 1)) (recoverySlices + recoveryOffset)

/-- The number of volumes for a start. -/
def pow2Volumes (recoverySlices recoveryOffset outputFileMaxSlices start : ℕ) : ℕ :=
  (List.range (recoverySlices + recoveryOffset)).countP
    (pow2Kept recoverySlices recoveryOffset outputFileMaxSlices start)

theorem pow2Start_monotone (outputFileMaxSlices start : ℕ) :
    Monotone (pow2Start outputFileMaxSlices start) :=
  monotone_nat_of_le_succ fun _ => Nat.le_add_right _ _

/-- Behind the last slice there are no volumes. -/
theorem countP_behind {recoverySlices recoveryOffset outputFileMaxSlices start k : ℕ}
    (behind : recoverySlices + recoveryOffset ≤ pow2Start outputFileMaxSlices start k) (count : ℕ) :
    (List.range' k count).countP
      (pow2Kept recoverySlices recoveryOffset outputFileMaxSlices start) = 0 := by
  rw [List.countP_eq_zero]
  intro later member
  have after : k ≤ later := (List.mem_range'_1.mp member).1
  have beyond := pow2Start_monotone outputFileMaxSlices start after
  rw [pow2Kept, decide_eq_true_eq]
  omega

/-- The list that the code makes has one entry for each volume that is kept. The induction is on its
rounds, of which each is at the next volume. -/
theorem getSliceNumsOffsets_length {outputFileMaxSlices start : ℕ} (recoverySlices recoveryOffset : ℕ)
    (pos : 0 < start) (wide : 0 < outputFileMaxSlices) (fuel k : ℕ) :
    (getSliceNumsOffsets (recoverySlices + recoveryOffset) recoveryOffset outputFileMaxSlices fuel
      (pow2Start outputFileMaxSlices start k) (min (start * 2 ^ k) outputFileMaxSlices)).length =
      (List.range' k fuel).countP
        (pow2Kept recoverySlices recoveryOffset outputFileMaxSlices start) := by
  induction fuel generalizing k with
  | zero => rfl
  | succ fuel ih =>
    have next := ih (k + 1)
    have size : min (min (start * 2 ^ k) outputFileMaxSlices * 2) outputFileMaxSlices =
        min (start * 2 ^ (k + 1)) outputFileMaxSlices := by
      rw [Nat.pow_succ, ← Nat.mul_assoc]
      omega
    have some : 0 < min (start * 2 ^ k) outputFileMaxSlices := by
      have power : 0 < start * 2 ^ k := Nat.mul_pos pos (Nat.two_pow_pos k)
      omega
    have step : pow2Start outputFileMaxSlices start (k + 1) =
        pow2Start outputFileMaxSlices start k + min (start * 2 ^ k) outputFileMaxSlices := rfl
    rw [getSliceNumsOffsets]
    by_cases more : pow2Start outputFileMaxSlices start k < recoverySlices + recoveryOffset
    · rw [if_pos more, size, ← step, List.range'_succ, List.countP_cons, ← next]
      by_cases below : pow2Start outputFileMaxSlices start k +
          min (min (start * 2 ^ k) outputFileMaxSlices)
            (recoverySlices + recoveryOffset - pow2Start outputFileMaxSlices start k) ≤ recoveryOffset
      · have dropped : ¬ pow2Kept recoverySlices recoveryOffset outputFileMaxSlices start k := by
          rw [pow2Kept, decide_eq_true_eq]
          omega
        rw [if_pos below, if_neg dropped]
        rfl
      · have kept : pow2Kept recoverySlices recoveryOffset outputFileMaxSlices start k := by
          rw [pow2Kept, decide_eq_true_eq]
          omega
        rw [if_neg below, if_pos kept]
        split <;> rfl
    · rw [if_neg more, countP_behind (not_lt.mp more)]
      rfl

/-- The volumes of a start, as the search counts them. -/
theorem pow2_length {outputFileMaxSlices start : ℕ} (recoverySlices recoveryOffset : ℕ)
    (pos : 0 < start) (inside : start ≤ outputFileMaxSlices) :
    (getSliceNumsOffsets (recoverySlices + recoveryOffset) recoveryOffset outputFileMaxSlices
      (recoverySlices + recoveryOffset) 0 start).length =
      pow2Volumes recoverySlices recoveryOffset outputFileMaxSlices start := by
  have all := getSliceNumsOffsets_length recoverySlices recoveryOffset pos
    (lt_of_lt_of_le pos inside) (recoverySlices + recoveryOffset) 0
  rw [Nat.pow_zero, Nat.mul_one, min_eq_left inside] at all
  rw [pow2Volumes, List.range_eq_range', ← all]
  rfl

theorem pow2Start_double (outputFileMaxSlices start k : ℕ) :
    pow2Start outputFileMaxSlices start k ≤ pow2Start outputFileMaxSlices (start * 2) k := by
  induction k with
  | zero => exact Nat.le_refl 0
  | succ k ih =>
    have larger : start * 2 ^ k ≤ start * 2 * 2 ^ k := Nat.mul_le_mul_right _ (by omega)
    rw [pow2Start, pow2Start]
    omega

/-- From the first slice on, a larger start never has more volumes. -/
theorem pow2Volumes_double {outputFileMaxSlices start : ℕ} (recoverySlices : ℕ) (pos : 0 < start)
    (wide : 0 < outputFileMaxSlices) :
    pow2Volumes recoverySlices 0 outputFileMaxSlices (start * 2) ≤
      pow2Volumes recoverySlices 0 outputFileMaxSlices start := by
  refine List.countP_mono_left fun k _ kept => ?_
  have later := pow2Start_double outputFileMaxSlices start k
  have power : 0 < start * 2 ^ k := Nat.mul_pos pos (Nat.two_pow_pos k)
  have step : pow2Start outputFileMaxSlices start (k + 1) =
      pow2Start outputFileMaxSlices start k + min (start * 2 ^ k) outputFileMaxSlices := rfl
  rw [pow2Kept, decide_eq_true_eq] at kept ⊢
  omega

theorem pow2Volumes_antitone (recoverySlices : ℕ) {outputFileMaxSlices : ℕ}
    (wide : 0 < outputFileMaxSlices) :
    Antitone fun j => pow2Volumes recoverySlices 0 outputFileMaxSlices (2 ^ j) :=
  antitone_nat_of_succ_le fun j => by
    rw [Nat.pow_succ]
    exact pow2Volumes_double recoverySlices (Nat.two_pow_pos j) wide

/-- The first start with no more volumes than asked for has as many, if any has. -/
def FirstStartFits (recoverySlices recoveryOffset outputFileMaxSlices outputFileCount : ℕ) : Prop :=
  ∀ j, 2 ^ j ≤ outputFileMaxSlices →
    pow2Volumes recoverySlices recoveryOffset outputFileMaxSlices (2 ^ j) = outputFileCount →
      ∃ first ≤ j,
        pow2Volumes recoverySlices recoveryOffset outputFileMaxSlices (2 ^ first) = outputFileCount ∧
        ∀ i < first,
          outputFileCount < pow2Volumes recoverySlices recoveryOffset outputFileMaxSlices (2 ^ i)

theorem firstStartFits_zero (recoverySlices : ℕ) {outputFileMaxSlices : ℕ}
    (wide : 0 < outputFileMaxSlices) (outputFileCount : ℕ) :
    FirstStartFits recoverySlices 0 outputFileMaxSlices outputFileCount := by
  intro j _ same
  have exists_start : ∃ i,
      pow2Volumes recoverySlices 0 outputFileMaxSlices (2 ^ i) = outputFileCount := ⟨j, same⟩
  refine ⟨Nat.find exists_start, Nat.find_min' exists_start same, Nat.find_spec exists_start, ?_⟩
  intro i before
  have less := pow2Volumes_antitone recoverySlices wide before.le
  have spec := Nat.find_spec exists_start
  have different := Nat.find_min exists_start before
  simp only at less
  omega

/-- The search looks at one start after the other, until there are no more volumes than asked for. -/
theorem findSliceFilesList_iff (list : ℕ → List (ℕ × ℕ)) {outputFileMaxSlices : ℕ}
    (outputFileCount : ℤ) (fuel i : ℕ) (enough : outputFileMaxSlices < fuel + i) :
    (findSliceFilesList list outputFileMaxSlices outputFileCount fuel (2 ^ i)).isSome ↔
      ∃ first ≥ i, 2 ^ first ≤ outputFileMaxSlices ∧ (list (2 ^ first)).length = outputFileCount ∧
        ∀ h, i ≤ h → h < first → outputFileCount < (list (2 ^ h)).length := by
  induction fuel generalizing i with
  | zero =>
    rw [findSliceFilesList]
    refine iff_of_false (by decide) ?_
    rintro ⟨first, after, inside, -⟩
    have large : first < 2 ^ first := Nat.lt_two_pow_self
    omega
  | succ fuel ih =>
    rw [findSliceFilesList]
    split_ifs with inside same few
    · exact iff_of_true rfl ⟨i, le_refl i, inside, same, fun h after before => by omega⟩
    · refine iff_of_false (by decide) ?_
      rintro ⟨first, after, -, fits, more⟩
      obtain rfl | later := Nat.eq_or_lt_of_le after
      · exact same fits
      · exact absurd (more i (le_refl i) later) (by omega)
    · rw [← Nat.pow_succ, ih (i + 1) (by omega)]
      constructor
      · rintro ⟨first, after, within, fits, more⟩
        refine ⟨first, by omega, within, fits, fun h from_i before => ?_⟩
        obtain rfl | later := Nat.eq_or_lt_of_le from_i
        · omega
        · exact more h later before
      · rintro ⟨first, after, within, fits, more⟩
        obtain rfl | later := Nat.eq_or_lt_of_le after
        · exact absurd fits same
        · exact ⟨first, later, within, fits, fun h from_i => more h (by omega)⟩
    · refine iff_of_false (by decide) ?_
      rintro ⟨first, after, within, -⟩
      exact inside ((Nat.pow_le_pow_right (by omega) after).trans within)

theorem findSliceFilesList_length {list : ℕ → List (ℕ × ℕ)} {outputFileMaxSlices : ℕ}
    {outputFileCount : ℤ} {fuel slices : ℕ} {found : List (ℕ × ℕ)}
    (searched : findSliceFilesList list outputFileMaxSlices outputFileCount fuel slices = some found) :
    (found.length : ℤ) = outputFileCount := by
  induction fuel generalizing slices with
  | zero => cases searched
  | succ fuel ih =>
    rw [findSliceFilesList] at searched
    split_ifs at searched with more same few
    · cases searched
      exact same
    · exact ih searched

/-! ## Volumes of one size -/

theorem uniformFiles_length (recoverySlices recoveryOffset numFiles slicePos : ℕ) :
    (uniformFiles recoverySlices recoveryOffset numFiles slicePos).length = numFiles := by
  induction numFiles generalizing slicePos with
  | zero => rfl
  | succ numFiles ih => rw [uniformFiles, List.length_cons, ih]

/-- Files are pushed until no slice is left. -/
theorem equalFiles_length {recoverySlices slicesPerFile : ℕ} (recoveryOffset : ℕ)
    (pos : 0 < slicesPerFile) (fuel i : ℕ) (enough : recoverySlices ≤ fuel + i) :
    (equalFiles recoverySlices recoveryOffset slicesPerFile fuel i).length =
      (recoverySlices - i + slicesPerFile - 1) / slicesPerFile := by
  induction fuel generalizing i with
  | zero =>
    rw [equalFiles, List.length_nil, Nat.div_eq_of_lt (by omega)]
  | succ fuel ih =>
    rw [equalFiles]
    split
    case isTrue more =>
      rw [List.length_cons, ih _ (by omega)]
      by_cases last : recoverySlices - i ≤ slicesPerFile
      · rw [Nat.div_eq_of_lt (by omega), Nat.div_eq_of_lt_le (k := 1) (by omega) (by omega)]
      · rw [show recoverySlices - i + slicesPerFile - 1 =
          recoverySlices - (i + slicesPerFile) + slicesPerFile - 1 + slicesPerFile by omega,
          Nat.add_div_right _ pos]
    case isFalse none =>
      rw [List.length_nil, Nat.div_eq_of_lt (by omega)]

/-- Slices in volumes of a rounded up size: there are as many volumes as asked for if the last is not
empty. -/
theorem equal_volumes_iff {slices volumes : ℕ} (some : 0 < volumes) (enough : volumes ≤ slices) :
    (slices + (slices + volumes - 1) / volumes - 1) / ((slices + volumes - 1) / volumes) = volumes ↔
      (volumes - 1) * ((slices + volumes - 1) / volumes) < slices := by
  have covers := @Nat.lt_div_mul_add (slices + volumes - 1) volumes some
  have pos : 0 < (slices + volumes - 1) / volumes := Nat.div_pos (by omega) some
  generalize (slices + volumes - 1) / volumes = size at covers pos ⊢
  obtain ⟨fewer, rfl⟩ : ∃ fewer, volumes = fewer + 1 := ⟨volumes - 1, by omega⟩
  have product : (fewer + 1) * size = fewer * size + size := by ring
  have commuted : size * (fewer + 1) = fewer * size + size := by ring
  rw [Nat.div_eq_iff pos, Nat.add_sub_cancel]
  omega

/-- The slices behind the first volume do not run out before the last volume. -/
def LastVolumeFilled (recoverySlices outputFirstFileSlices outputFileCount : ℕ) : Prop :=
  let left := recoverySlices - outputFirstFileSlices
  let volumes := if outputFirstFileSlices ≠ 0 then outputFileCount - 1 else outputFileCount
  volumes = 0 ∨ (volumes - 1) * ((left + volumes - 1) / volumes) < left

/-- The volumes behind the first one. -/
theorem equalFiles_count_iff {recoverySlices outputFirstFileSlices volumes : ℕ} (recoveryOffset : ℕ) (some : 0 < volumes)
    (enough : volumes ≤ recoverySlices - outputFirstFileSlices) :
    (equalFiles recoverySlices recoveryOffset
      (ceilQuotient (recoverySlices - outputFirstFileSlices : ℕ) volumes).toNat recoverySlices
      outputFirstFileSlices).length = volumes ↔
      (volumes - 1) * ((recoverySlices - outputFirstFileSlices + volumes - 1) / volumes) <
        recoverySlices - outputFirstFileSlices := by
  obtain ⟨fewer, rfl⟩ : ∃ fewer, volumes = fewer + 1 := ⟨volumes - 1, by omega⟩
  have size := ceilQuotient_nat (recoverySlices - outputFirstFileSlices) fewer
  have pos : 0 < (recoverySlices - outputFirstFileSlices + fewer) / (fewer + 1) :=
    Nat.div_pos (by omega) (by omega)
  have iff := equal_volumes_iff some enough
  have quotient : recoverySlices - outputFirstFileSlices + (fewer + 1) - 1 =
      recoverySlices - outputFirstFileSlices + fewer := by omega
  rw [quotient] at iff ⊢
  rw [Nat.cast_succ, size, Int.toNat_natCast,
    equalFiles_length recoveryOffset pos _ _ (by omega), iff]

theorem equalFiles_end (recoverySlices recoveryOffset slicesPerFile fuel : ℕ) :
    equalFiles recoverySlices recoveryOffset slicesPerFile fuel recoverySlices = [] := by
  cases fuel with
  | zero => rfl
  | succ fuel => rw [equalFiles, if_neg (lt_irrefl _)]

/-! ## Schemes -/

section Schemes

variable {recoverySlices recoveryOffset outputFirstFileSlices outputFileMaxSlices outputFileCount : ℕ}
  {list : List (ℕ × ℕ)} (asked : outputFileCount ≠ 0)

include asked

theorem pow2_count (planned : sliceFilesList recoverySlices recoveryOffset outputFirstFileSlices
    outputFileMaxSlices outputFileCount .pow2 = .ok list) : list.length = outputFileCount := by
  have counted : (outputFileCount : ℤ) ≠ 0 := by omega
  simp only [sliceFilesList] at planned
  rw [if_pos counted] at planned
  split at planned
  · next found searched =>
    cases planned
    exact_mod_cast findSliceFilesList_length searched
  · cases planned

theorem uniform_count (planned : sliceFilesList recoverySlices recoveryOffset outputFirstFileSlices
    outputFileMaxSlices outputFileCount .uniform = .ok list) : list.length = outputFileCount := by
  have counted : (outputFileCount : ℤ) ≠ 0 := by omega
  have natural : ¬ (outputFileCount : ℤ) < 0 := by omega
  simp only [sliceFilesList] at planned
  rw [if_pos counted, if_neg natural] at planned
  cases planned
  rw [uniformFiles_length, Int.toNat_natCast]

theorem equal_count_iff (enough : outputFileCount ≤ recoverySlices)
    (first : outputFirstFileSlices ≤ recoverySlices)
    (planned : sliceFilesList recoverySlices recoveryOffset outputFirstFileSlices
      outputFileMaxSlices outputFileCount .equal = .ok list) :
    list.length = outputFileCount ↔
      LastVolumeFilled recoverySlices outputFirstFileSlices outputFileCount := by
  have counted : (outputFileCount : ℤ) ≠ 0 := by omega
  simp only [sliceFilesList] at planned
  rw [if_pos counted] at planned
  rw [LastVolumeFilled]
  by_cases wanted : outputFirstFileSlices ≠ 0
  · rw [if_pos wanted, if_pos wanted] at planned
    rw [if_pos wanted]
    split_ifs at planned with single many
    · cases planned
    · cases planned
    · replace planned : (if ceilQuotient (recoverySlices - outputFirstFileSlices : ℕ)
            (outputFileCount - 1) ≤ 0 ∧ outputFirstFileSlices < recoverySlices then
          Except.error PlanFailure.endless
        else .ok ([(outputFirstFileSlices, recoveryOffset)] ++
          equalFiles recoverySlices recoveryOffset (ceilQuotient (recoverySlices -
            outputFirstFileSlices : ℕ) (outputFileCount - 1)).toNat recoverySlices
            outputFirstFileSlices)) = .ok list := planned
      split_ifs at planned with stuck
      cases planned
      obtain ⟨others, rfl⟩ : ∃ others, outputFileCount = others + 1 := ⟨outputFileCount - 1, by omega⟩
      have volumes : ((others + 1 : ℕ) : ℤ) - 1 = others := by omega
      rw [volumes, List.length_append, List.length_singleton, Nat.add_comm 1, Nat.add_right_cancel_iff,
        Nat.add_sub_cancel]
      obtain none | some := Nat.eq_zero_or_pos others
      · have all : outputFirstFileSlices = recoverySlices := by omega
        rw [all, equalFiles_end]
        exact iff_of_true none.symm (.inl none)
      · rw [equalFiles_count_iff recoveryOffset some (by omega), or_iff_right (by omega)]
  · rw [if_neg wanted] at planned
    rw [if_neg wanted]
    have none : outputFirstFileSlices = 0 := not_not.mp wanted
    replace planned : (if ceilQuotient recoverySlices outputFileCount ≤ 0 ∧
          outputFirstFileSlices < recoverySlices then Except.error PlanFailure.endless
        else .ok ((if outputFirstFileSlices ≠ 0 then [(outputFirstFileSlices, recoveryOffset)] else []) ++
          equalFiles recoverySlices recoveryOffset (ceilQuotient recoverySlices outputFileCount).toNat
            recoverySlices outputFirstFileSlices)) = .ok list := planned
    split_ifs at planned with stuck
    cases planned
    have iff := @equalFiles_count_iff recoverySlices 0 outputFileCount recoveryOffset (by omega) enough
    rw [Nat.sub_zero] at iff
    rw [none, List.nil_append, Nat.sub_zero, iff, or_iff_right asked]

end Schemes

/-! ## Plans -/

/-- The files of a plan that have recovery slices. -/
def volumeCount (files : List PAR2OutFile) : ℕ := files.countP fun file => file.recoverySlices ≠ 0

variable {opts : PAR2GenOptions} {par : PAR2}

theorem volumeCount_parts {index volumes : List PAR2OutFile} {list : List (ℕ × ℕ)} {start stop : ℕ}
    (indexed : Indexed (index ++ volumes)) (none : index.flatMap PAR2OutFile.exponents = [])
    (exponents : volumes.map PAR2OutFile.exponents =
      list.map fun volume => List.range' volume.2 volume.1)
    (consecutive : Consecutive start list stop) : volumeCount (index ++ volumes) = list.length := by
  have length := congrArg List.length exponents
  rw [List.length_map, List.length_map] at length
  have noIndex : index.countP (fun file => file.recoverySlices ≠ 0) = 0 := by
    rw [List.countP_eq_zero]
    intro file member
    have empty := List.flatMap_eq_nil_iff.mp none file member
    rw [decide_eq_true_eq, not_not, indexed.counted file (List.mem_append_left _ member), empty]
    rfl
  have allVolumes : volumes.countP (fun file => file.recoverySlices ≠ 0) = volumes.length := by
    rw [List.countP_eq_length]
    intro file member
    have some := (consecutive.map_flatten exponents).2 file member
    rw [decide_eq_true_eq, indexed.counted file (List.mem_append_right _ member)]
    exact fun zero => some (List.eq_nil_of_length_eq_zero zero)
  rw [volumeCount, List.countP_append, noIndex, allVolumes, Nat.zero_add, length]

/-- There are no more volumes than slices. -/
theorem Consecutive.length_le {start stop : ℕ} {list : List (ℕ × ℕ)}
    (consecutive : Consecutive start list stop) : start + list.length ≤ stop := by
  induction list generalizing start with
  | nil => exact Nat.le_of_eq consecutive
  | cons first rest ih =>
    obtain ⟨-, pos, later⟩ := consecutive
    have bound := ih later
    rw [List.length_cons]
    omega

/-- The volumes of one size come out even. -/
def CountHolds (opts : PAR2GenOptions) : Prop :=
  opts.outputFileCount < 2 ^ 31 ∧ (opts.outputSizeScheme = .equal →
    LastVolumeFilled opts.recoverySlices (firstFileSlices opts) opts.outputFileCount)

theorem bmod_small {n : ℕ} (fits : n < 2 ^ 31) : (n : ℤ).bmod (2 ^ 32) = n := by
  have small : (n : ℤ) % ((2 ^ 32 : ℕ) : ℤ) = n := by omega
  rw [Int.bmod_def, small, if_pos]
  omega

theorem fileCount_eq (fits : opts.outputFileCount < 2 ^ 31) :
    fileCount opts = opts.outputFileCount := bmod_small fits

theorem maxSlices_pos (opts : PAR2GenOptions) : 0 < maxSlices opts := by
  rw [maxSlices]
  omega

theorem firstFileSlices_le (opts : PAR2GenOptions) : firstFileSlices opts ≤ opts.recoverySlices := by
  rw [firstFileSlices]
  split <;> omega

theorem volumeCount_iff (plain : opts.recoveryExponents = none) (asked : opts.outputFileCount ≠ 0)
    {files : List PAR2OutFile} (planned : recoveryFiles opts par = .ok files) :
    volumeCount files = opts.outputFileCount ↔ CountHolds opts := by
  obtain ⟨index, volumes, list, rfl, indexed, -, none, exponents, consecutive, limit, enough, listed⟩ :=
    recoveryFiles_parts plain planned
  rw [volumeCount_parts indexed none exponents consecutive, CountHolds]
  have bound := consecutive.length_le
  by_cases fits : opts.outputFileCount < 2 ^ 31
  · rw [fileCount_eq fits] at enough listed
    have list_eq := listed (by omega)
    rw [and_iff_right fits]
    cases scheme : opts.outputSizeScheme with
    | pow2 =>
      rw [scheme] at list_eq
      exact iff_of_true (pow2_count asked list_eq) nofun
    | uniform =>
      rw [scheme] at list_eq
      exact iff_of_true (uniform_count asked list_eq) nofun
    | equal =>
      rw [scheme] at list_eq
      rw [equal_count_iff asked (by omega) (firstFileSlices_le opts) list_eq]
      exact ⟨fun filled _ => filled, fun filled => filled rfl⟩
  · exact iff_of_false (by omega) fun holds => fits holds.1

theorem pow2_found_iff (limit : opts.recoverySlices + opts.recoveryOffset ≤ 65535)
    (asked : opts.outputFileCount ≠ 0) :
    ((∃ j, 2 ^ j ≤ maxSlices opts ∧ (getSliceNumsOffsets (opts.recoverySlices + opts.recoveryOffset)
          opts.recoveryOffset (maxSlices opts) (opts.recoverySlices + opts.recoveryOffset) 0
          (2 ^ j)).length = opts.outputFileCount) →
        ∃ list, sliceFilesList opts.recoverySlices opts.recoveryOffset (firstFileSlices opts)
          (maxSlices opts) (fileCount opts) .pow2 = .ok list ∧ list.length = opts.outputFileCount) ↔
      FirstStartFits opts.recoverySlices opts.recoveryOffset (maxSlices opts) opts.outputFileCount := by
  have length (j : ℕ) (inside : 2 ^ j ≤ maxSlices opts) :=
    pow2_length opts.recoverySlices opts.recoveryOffset (Nat.two_pow_pos j) inside
  have few (start : ℕ) : pow2Volumes opts.recoverySlices opts.recoveryOffset (maxSlices opts) start ≤
      65535 := by
    refine List.countP_le_length.trans ?_
    rw [List.length_range]
    exact limit
  by_cases fits : opts.outputFileCount < 2 ^ 31
  · have counted : (opts.outputFileCount : ℤ) ≠ 0 := by omega
    have searched := @findSliceFilesList_iff (getSliceNumsOffsets
      (opts.recoverySlices + opts.recoveryOffset) opts.recoveryOffset (maxSlices opts)
      (opts.recoverySlices + opts.recoveryOffset) 0) (maxSlices opts) opts.outputFileCount
      (maxSlices opts + 1) 0 (by omega)
    have found : (∃ list, sliceFilesList opts.recoverySlices opts.recoveryOffset (firstFileSlices opts)
          (maxSlices opts) (fileCount opts) .pow2 = .ok list ∧ list.length = opts.outputFileCount) ↔
        ∃ first, 2 ^ first ≤ maxSlices opts ∧
          pow2Volumes opts.recoverySlices opts.recoveryOffset (maxSlices opts) (2 ^ first) =
            opts.outputFileCount ∧
          ∀ i < first, opts.outputFileCount <
            pow2Volumes opts.recoverySlices opts.recoveryOffset (maxSlices opts) (2 ^ i) := by
      have isSome : (∃ list, sliceFilesList opts.recoverySlices opts.recoveryOffset
            (firstFileSlices opts) (maxSlices opts) (fileCount opts) .pow2 = .ok list ∧
            list.length = opts.outputFileCount) ↔
          (findSliceFilesList (getSliceNumsOffsets (opts.recoverySlices + opts.recoveryOffset)
            opts.recoveryOffset (maxSlices opts) (opts.recoverySlices + opts.recoveryOffset) 0)
            (maxSlices opts) opts.outputFileCount (maxSlices opts + 1) 1).isSome := by
        rw [fileCount_eq fits]
        constructor
        · rintro ⟨list, planned, -⟩
          simp only [sliceFilesList] at planned
          rw [if_pos counted] at planned
          split at planned
          · next found searched => rw [searched, Option.isSome_some]
          · cases planned
        · intro searched
          obtain ⟨list, found⟩ := Option.isSome_iff_exists.mp searched
          refine ⟨list, ?_, by exact_mod_cast findSliceFilesList_length found⟩
          simp only [sliceFilesList]
          rw [if_pos counted, found]
      rw [isSome]
      refine searched.trans ⟨?_, ?_⟩
      · rintro ⟨first, -, within, same, more⟩
        rw [length first within] at same
        refine ⟨first, within, by exact_mod_cast same, fun i before => ?_⟩
        have inside : 2 ^ i ≤ maxSlices opts :=
          (Nat.pow_le_pow_right (by omega) before.le).trans within
        have larger := more i (Nat.zero_le i) before
        rw [length i inside] at larger
        exact_mod_cast larger
      · rintro ⟨first, within, same, more⟩
        refine ⟨first, Nat.zero_le _, within, by rw [length first within, same], fun i _ before => ?_⟩
        have inside : 2 ^ i ≤ maxSlices opts :=
          (Nat.pow_le_pow_right (by omega) before.le).trans within
        rw [length i inside]
        exact_mod_cast more i before
    rw [found]
    constructor
    · intro holds j inside same
      obtain ⟨first, within, fitting, more⟩ := holds ⟨j, inside, by rw [length j inside, same]⟩
      refine ⟨first, ?_, fitting, more⟩
      by_contra later
      exact absurd same (more j (not_le.mp later)).ne'
    · rintro holds ⟨j, inside, same⟩
      rw [length j inside] at same
      obtain ⟨first, before, fitting, more⟩ := holds j inside same
      exact ⟨first, (Nat.pow_le_pow_right (by omega) before).trans inside, fitting, more⟩
  · refine iff_of_true ?_ ?_
    · rintro ⟨j, inside, same⟩
      rw [length j inside] at same
      have bound := few (2 ^ j)
      omega
    · intro j inside same
      have bound := few (2 ^ j)
      omega

/-- A plan that succeeds has the number of volumes asked for unless volumes of one size use up the slices
too early, or the number wraps. The search finds a start for that number, if there is one, unless an
earlier start has fewer volumes; without an offset that never happens. -/
theorem recoveryFiles_volumes_iff (plain : opts.recoveryExponents = none)
    (asked : opts.outputFileCount ≠ 0) :
    (∀ files, recoveryFiles opts par = .ok files →
      (volumeCount files = opts.outputFileCount ↔ CountHolds opts)) ∧
    (opts.recoverySlices + opts.recoveryOffset ≤ 65535 →
      (((∃ j, 2 ^ j ≤ maxSlices opts ∧ (getSliceNumsOffsets (opts.recoverySlices + opts.recoveryOffset)
          opts.recoveryOffset (maxSlices opts) (opts.recoverySlices + opts.recoveryOffset) 0
          (2 ^ j)).length = opts.outputFileCount) →
        ∃ list, sliceFilesList opts.recoverySlices opts.recoveryOffset (firstFileSlices opts)
          (maxSlices opts) (fileCount opts) .pow2 = .ok list ∧ list.length = opts.outputFileCount) ↔
      FirstStartFits opts.recoverySlices opts.recoveryOffset (maxSlices opts)
        opts.outputFileCount)) ∧
    (opts.recoveryOffset = 0 →
      FirstStartFits opts.recoverySlices opts.recoveryOffset (maxSlices opts)
        opts.outputFileCount) := by
  refine ⟨fun files planned => volumeCount_iff plain asked planned,
    fun limit => pow2_found_iff limit asked, ?_⟩
  intro zero
  rw [zero]
  exact firstStartFits_zero _ (maxSlices_pos opts) _

/-- Four slices in two volumes of the same number. -/
theorem recoveryFiles_volumes_two : ∃ files,
    recoveryFiles { fourSlices with outputSizeScheme := .equal, outputFileCount := 2 } oneFile =
      .ok files ∧ volumeCount files = 2 := by
  have planned : (recoveryFiles { fourSlices with outputSizeScheme := .equal, outputFileCount := 2 }
      oneFile).toOption.isSome = true := by decide +kernel
  cases built : recoveryFiles { fourSlices with outputSizeScheme := .equal, outputFileCount := 2 }
      oneFile with
  | error failed =>
    rw [built] at planned
    cases planned
  | ok files =>
    refine ⟨files, rfl, ?_⟩
    refine ((recoveryFiles_volumes_iff rfl (by decide)).1 files built).mpr ⟨by decide, fun _ => ?_⟩
    exact .inr (by decide)

def fiveSlices : PAR2GenOptions :=
  { fourSlices with recoverySlices := 5, outputSizeScheme := .equal, outputFileCount := 4 }

def twoSlices : PAR2GenOptions :=
  { fourSlices with
    recoverySlices := 2, recoveryOffset := 5, outputFileMaxSlices := 16, outputFileCount := 2 }

/-- Five slices in four volumes give three. Two slices from the exponent five on, in two volumes: the
start 2 has them, but the start 1 has one volume only, and the search gives up. -/
theorem recoveryFiles_volumes_refuted :
    (∃ files, recoveryFiles fiveSlices oneFile = .ok files ∧ volumeCount files ≠ 4) ∧
    (getSliceNumsOffsets 7 5 16 7 0 2).length = 2 ∧
    recoveryFiles twoSlices oneFile =
      .error (.thrown "Unable to find a set of parameters to generate 2 recovery volume(s)") := by
  have three : (recoveryFiles fiveSlices oneFile).toOption.map volumeCount = some 3 := by decide +kernel
  have thrown : (match recoveryFiles twoSlices oneFile with
      | .ok _ => none
      | .error failure => some failure) =
        some (.thrown "Unable to find a set of parameters to generate 2 recovery volume(s)") := by
    decide +kernel
  refine ⟨?_, by decide, ?_⟩
  · cases built : recoveryFiles fiveSlices oneFile with
    | error failed =>
      rw [built] at three
      cases three
    | ok files =>
      rw [built] at three
      refine ⟨files, rfl, ?_⟩
      rw [Option.some.inj three]
      decide
  · cases built : recoveryFiles twoSlices oneFile with
    | error failed =>
      rw [built] at thrown
      exact congrArg Except.error (Option.some.inj thrown)
    | ok files =>
      rw [built] at thrown
      cases thrown

end PAR2Gen

end Par3
