import Par3.Foundations.FallibleLoops
import Par3.SliceSize

/-!
# Sizes within the limits

The size that is chosen gives the number of slices that was asked for, or one within limits that are
numbers, whenever some multiple does. The bounds of the search are next to each other, so that no number
of slices is passed over.
-/
namespace Par3

open FallibleLoops

namespace SliceSizeOpts

variable {o : SliceSizeOpts}

/-! ## What is left of the options -/

theorem checkMin_multiple {adjSSmin : Bool} (checked : o.checkMin = .ok adjSSmin) {min : SliceSpec}
    (given : o.minSliceSize = some min) (size : 0 < min.value) :
    (o.sliceSizeMultiple : ℤ) ∣ min.value := by
  rw [checkMin, given] at checked
  dsimp only at checked
  split_ifs at checked with same rest
  exact Int.dvd_of_emod_eq_zero (not_not.mp fun some => rest ⟨size, some⟩)

theorem checkMax_multiple {adjSSmax : Bool} (checked : o.checkMax = .ok adjSSmax) {max : SliceSpec}
    (given : o.maxSliceSize = some max) (size : 0 < max.value) :
    (o.sliceSizeMultiple : ℤ) ∣ max.value := by
  rw [checkMax, given] at checked
  dsimp only at checked
  split_ifs at checked with same rest
  exact Int.dvd_of_emod_eq_zero (not_not.mp fun some => rest ⟨size, some⟩)

/-- A number that is a size is a multiple. -/
def Multiple (o : SliceSizeOpts) (value : ℤ) : Prop := 0 < value → (o.sliceSizeMultiple : ℤ) ∣ value

theorem checkSize_holds (checked : o.checkSize = .ok ()) :
    0 < o.sliceSizeMultiple ∧ o.Multiple o.sliceSize.value := by
  rw [checkSize] at checked
  split_ifs at checked with files multiple size
  refine ⟨by omega, fun positive => Int.dvd_of_emod_eq_zero (not_not.mp fun rest => ?_)⟩
  exact size ⟨positive.le, rest⟩

theorem wanted_holds {wanted : Wanted} (ready : o.wanted = .ok wanted) :
    0 < o.sliceSizeMultiple ∧ o.Multiple wanted.sliceSize ∧ o.Multiple wanted.minSliceSize ∧
      o.Multiple wanted.maxSliceSize := by
  rw [SliceSizeOpts.wanted] at ready
  obtain ⟨_, checked, ready⟩ := bind_eq_ok.mp ready
  obtain ⟨adjSSmin, minChecked, ready⟩ := bind_eq_ok.mp ready
  obtain ⟨adjSSmax, maxChecked, ready⟩ := bind_eq_ok.mp ready
  obtain ⟨_, -, ready⟩ := bind_eq_ok.mp ready
  cases ready
  obtain ⟨positive, size⟩ := checkSize_holds checked
  have low : o.Multiple (o.adjustMin adjSSmin).1 ∧ o.Multiple (o.adjustMin adjSSmin).2 := by
    rw [adjustMin]
    split
    case h_1 => exact ⟨size, size⟩
    case h_2 min given =>
      refine ⟨checkMin_multiple minChecked given, ?_⟩
      dsimp only
      split
      · exact checkMin_multiple minChecked given
      · exact size
  have high : o.Multiple (o.adjustMax adjSSmax (o.adjustMin adjSSmin).2).1 ∧
      o.Multiple (o.adjustMax adjSSmax (o.adjustMin adjSSmin).2).2 := by
    rw [adjustMax]
    split
    case h_1 => exact ⟨low.2, low.2⟩
    case h_2 max given =>
      refine ⟨checkMax_multiple maxChecked given, ?_⟩
      dsimp only
      split
      · exact checkMax_multiple maxChecked given
      · exact low.2
  exact ⟨positive, high.2, low.1, high.1⟩

/-! ## The search -/

/-- The number of slices of a size. -/
def slices (o : SliceSizeOpts) (size : ℕ) : ℕ := calcNumSlicesForFiles o.fileInfo size

theorem slices_le {small large : ℕ} (positive : 0 < small) (larger : small ≤ large) :
    o.slices large ≤ o.slices small := slices_antitone o.fileInfo positive larger

theorem dataFiles_le {size : ℕ} (positive : 0 < size) : o.dataFiles ≤ o.slices size :=
  le_slices o.fileInfo positive

theorem data_exists (data : 0 < o.dataFiles) : ∃ size ∈ o.fileInfo, size ≠ 0 := by
  obtain ⟨size, member⟩ := List.exists_mem_of_length_pos data
  obtain ⟨inside, some⟩ := List.mem_filter.mp member
  exact ⟨size, inside, by simpa using some⟩

/-- Without data there are no slices. -/
theorem slices_empty (empty : o.dataFiles = 0) {size : ℕ} (positive : 0 < size) : o.slices size = 0 := by
  rw [slices, slices_largest o.fileInfo positive, ← dataFiles, empty]
  intro file member
  have zero := List.filter_eq_nil_iff.mp (List.eq_nil_of_length_eq_zero empty) file member
  simp only [decide_eq_true_eq, not_not] at zero
  omega

theorem slicesOf_eq {size : ℕ} (positive : 0 < size) : o.slicesOf size = some (o.slices size : ℕ∞) := by
  rw [slicesOf, if_neg (by omega), slices]

theorem slicesOf_zero (empty : o.dataFiles = 0) : o.slicesOf 0 = some 0 ∨ o.slicesOf 0 = none := by
  rw [slicesOf, if_pos rfl]
  cases files : o.fileInfo with
  | nil => exact .inl (if_pos rfl)
  | cons first rest =>
    have zero := List.filter_eq_nil_iff.mp (List.eq_nil_of_length_eq_zero empty) first
      (by rw [files]; exact List.mem_cons_self)
    simp only [ne_eq, decide_not, Bool.not_eq_true', decide_eq_false_iff_not, not_not] at zero
    rw [if_neg (List.cons_ne_nil _ _), if_pos (by rw [zero]; exact List.mem_cons_self)]
    exact .inr rfl

/-- With data the bounds are multiples, next to each other or the same, with the number of slices
between their own. -/
theorem bounds_multiples (numSlices : ℕ) (multiple : 0 < o.sliceSizeMultiple) (data : 0 < o.dataFiles) :
    ∃ c d, o.bounds numSlices = .ok (c * o.sliceSizeMultiple, d * o.sliceSizeMultiple) ∧
      1 ≤ c ∧ c ≤ d ∧ d ≤ c + 1 ∧
      (o.dataFiles ≤ numSlices → o.slices (d * o.sliceSizeMultiple) ≤ numSlices) ∧
      (c = 1 ∨ numSlices < o.slices (c * o.sliceSizeMultiple)) := by
  obtain ⟨c, d, found, rest⟩ :=
    calcSliceSizeForFiles_multiples numSlices multiple (data_exists data)
  refine ⟨c, d, ?_, rest⟩
  rw [bounds, found]

/-- Without data the search ends at once. -/
theorem bounds_empty (numSlices : ℕ) (multiple : 0 < o.sliceSizeMultiple) (empty : o.dataFiles = 0) :
    o.bounds numSlices = .ok (o.sliceSizeMultiple, 0) := by
  have zeros : ∀ size ∈ o.fileInfo, size = 0 := by
    intro size member
    have zero := List.filter_eq_nil_iff.mp (List.eq_nil_of_length_eq_zero empty) size member
    simpa using zero
  have largest : o.fileInfo.foldl max 0 = 0 := by
    generalize o.fileInfo = files at zeros
    induction files with
    | nil => rfl
    | cons first rest ih =>
      obtain ⟨none, others⟩ := List.forall_mem_cons.mp zeros
      rw [List.foldl_cons, none]
      exact ih others
  have noSize : largestSize o.fileInfo o.sliceSizeMultiple = 0 := by
    rw [largestSize, largest, Nat.zero_add, Nat.div_eq_of_lt (by omega), Nat.zero_mul]
  rw [bounds, calcSliceSizeForFiles, noSize, calcSliceSizeLoop, if_neg (by omega)]

theorem bounds_dvd {numSlices : ℕ} (multiple : 0 < o.sliceSizeMultiple) {bounds : ℕ × ℕ}
    (found : o.bounds numSlices = .ok bounds) :
    o.sliceSizeMultiple ∣ bounds.1 ∧ o.sliceSizeMultiple ∣ bounds.2 := by
  obtain none | data := Nat.eq_zero_or_pos o.dataFiles
  · rw [bounds_empty numSlices multiple none] at found
    cases found
    exact ⟨dvd_refl _, dvd_zero _⟩
  · obtain ⟨c, d, same, -⟩ := bounds_multiples numSlices multiple data
    rw [same] at found
    cases found
    exact ⟨Nat.dvd_mul_left _ _, Nat.dvd_mul_left _ _⟩

/-- Multiples below the upper bound are the lower one, or smaller than a size with too many slices. -/
theorem beyond_lower {numSlices c d k : ℕ} (some : 1 ≤ k) (close : d ≤ c + 1)
    (lower : c = 1 ∨ numSlices < o.slices (c * o.sliceSizeMultiple))
    (multiple : 0 < o.sliceSizeMultiple) (fits : o.slices (k * o.sliceSizeMultiple) ≤ numSlices) :
    d ≤ k ∨ k = c := by
  by_contra below
  rw [not_or] at below
  obtain rfl | more := lower
  · omega
  · have larger := @slices_le o _ _ (Nat.mul_pos some multiple)
      (Nat.mul_le_mul_right o.sliceSizeMultiple (by omega : k ≤ c))
    omega

/-! ## The final number of slices -/

/-- Reducing a size keeps the number of slices. -/
theorem reduceSize_slices {wanted : Wanted} (multiple : 0 < o.sliceSizeMultiple)
    {size reduced : ℤ} (positive : 0 < size)
    (whole : (o.sliceSizeMultiple : ℤ) ∣ size)
    (result : o.reduceSize wanted size (o.slices size.toNat) = .ok reduced) :
    0 < reduced ∧ o.slices reduced.toNat = o.slices size.toNat := by
  rw [reduceSize] at result
  by_cases above : wanted.minSliceSize > 0 ∧ wanted.minSliceSize < size
  · rw [if_pos above] at result
    obtain ⟨bounds, found, result⟩ := bind_eq_ok.mp result
    obtain none | data := Nat.eq_zero_or_pos o.dataFiles
    · have kept : 0 < reduced := by
        split_ifs at result
        · cases result
          omega
        · cases result
          omega
        · cases result
          exact positive
      exact ⟨kept, by rw [slices_empty none (by omega), slices_empty none (by omega)]⟩
    obtain ⟨c, d, same, one, between, close, -, lower⟩ := bounds_multiples (o.slices size.toNat) multiple data
    rw [same] at found
    cases found
    obtain ⟨k, size_eq⟩ := whole
    lift k to ℕ using by
      by_contra negative
      have product := Int.mul_nonpos_of_nonneg_of_nonpos (Int.natCast_nonneg o.sliceSizeMultiple)
        (not_le.mp negative).le
      omega
    have natural : size.toNat = k * o.sliceSizeMultiple := by
      rw [size_eq, mul_comm]
      exact Int.toNat_natCast _
    have someSlices : 1 ≤ k := by
      by_contra zero
      rw [Nat.lt_one_iff.mp (not_le.mp zero), Nat.zero_mul] at natural
      omega
    rw [natural] at result lower ⊢
    have itself := Nat.le_mul_of_pos_left o.sliceSizeMultiple someSlices
    split_ifs at result with lowerSame upperSame
    · cases result
      obtain rfl | more := lower
      · rw [Nat.one_mul] at lowerSame ⊢
        have bottom : o.sliceSizeMultiple ≤ (max (o.sliceSizeMultiple : ℤ) wanted.minSliceSize).toNat := by
          omega
        have top : (max (o.sliceSizeMultiple : ℤ) wanted.minSliceSize).toNat ≤ k * o.sliceSizeMultiple := by
          omega
        refine ⟨by omega, le_antisymm ?_ (slices_le (by omega) top)⟩
        rw [← lowerSame]
        exact slices_le multiple bottom
      · exact absurd lowerSame more.ne'
    · cases result
      have positiveUpper : 0 < d * o.sliceSizeMultiple := Nat.mul_pos (by omega) multiple
      rw [slicesOf_eq positiveUpper] at upperSame
      have sameSlices : o.slices (d * o.sliceSizeMultiple) = o.slices (k * o.sliceSizeMultiple) := by
        exact_mod_cast Option.some.inj upperSame
      have reached : d ≤ k := by
        refine (beyond_lower someSlices close lower multiple (le_refl _)).resolve_right fun equal => ?_
        rw [equal] at lowerSame
        exact lowerSame rfl
      have wider := Nat.mul_le_mul_right o.sliceSizeMultiple reached
      have bottom : d * o.sliceSizeMultiple ≤
          (max ((d * o.sliceSizeMultiple : ℕ) : ℤ) wanted.minSliceSize).toNat := by
        omega
      have top : (max ((d * o.sliceSizeMultiple : ℕ) : ℤ) wanted.minSliceSize).toNat ≤
          k * o.sliceSizeMultiple := by
        omega
      refine ⟨by omega, le_antisymm ?_ (slices_le (by omega) top)⟩
      rw [← sameSlices]
      exact slices_le positiveUpper bottom
    · cases result
      exact ⟨positive, by rw [natural]⟩
  · rw [if_neg above] at result
    cases result
    exact ⟨positive, rfl⟩

/-- A size for a number of slices is a multiple. -/
theorem sizeForCount_dvd {wanted : Wanted} (multiple : 0 < o.sliceSizeMultiple)
    (least : o.Multiple wanted.minSliceSize) (most : o.Multiple wanted.maxSliceSize) {size : ℤ}
    (found : o.sizeForCount wanted = .ok size) : (o.sliceSizeMultiple : ℤ) ∣ size := by
  rw [sizeForCount] at found
  split_ifs at found
  obtain ⟨bounds, searched, found⟩ := bind_eq_ok.mp found
  obtain ⟨picked, pick, found⟩ := bind_eq_ok.mp found
  cases found
  obtain ⟨low, high⟩ := bounds_dvd multiple searched
  have natural : o.sliceSizeMultiple ∣ picked := by
    rw [pickBound] at pick
    split_ifs at pick
    · cases pick
      exact low
    · cases pick
      exact high
    · cases pick
      exact low
    · cases pick
      exact high
  have inner : (o.sliceSizeMultiple : ℤ) ∣ picked := by exact_mod_cast natural
  rw [Wanted.clip]
  split_ifs with below above above
  · exact most above.1
  · exact least below.1
  · exact most above.1
  · exact inner

theorem scaleDown_dvd {minSliceSize : ℤ} (multiple : 0 < o.sliceSizeMultiple) {size scaled : ℕ}
    (whole : o.sliceSizeMultiple ∣ size) (result : o.scaleDown minSliceSize size = .ok scaled) :
    o.sliceSizeMultiple ∣ scaled := by
  rw [scaleDown] at result
  split_ifs at result
  · obtain ⟨bounds, searched, result⟩ := bind_eq_ok.mp result
    cases result
    obtain ⟨low, high⟩ := bounds_dvd multiple searched
    split
    · exact low
    · exact high
  · cases result
    exact whole

theorem scaleUp_dvd {maxSliceSize : ℤ} (multiple : 0 < o.sliceSizeMultiple) {size scaled : ℕ}
    (whole : o.sliceSizeMultiple ∣ size) (result : o.scaleUp maxSliceSize size = .ok scaled) :
    o.sliceSizeMultiple ∣ scaled := by
  rw [scaleUp] at result
  split_ifs at result
  · obtain ⟨bounds, searched, result⟩ := bind_eq_ok.mp result
    cases result
    obtain ⟨low, high⟩ := bounds_dvd multiple searched
    split
    · exact high
    · exact low
  · cases result
    exact whole

theorem sizeForLimits_dvd {wanted : Wanted} (multiple : 0 < o.sliceSizeMultiple)
    (given : o.Multiple wanted.sliceSize) (natural : 0 ≤ wanted.sliceSize) {size : ℤ}
    (found : o.sizeForLimits wanted = .ok size) : (o.sliceSizeMultiple : ℤ) ∣ size := by
  have whole : o.sliceSizeMultiple ∣ wanted.sliceSize.toNat := by
    obtain zero | positive := natural.eq_or_lt
    · rw [← zero]
      exact dvd_zero _
    · have divides := given positive
      rw [← Int.toNat_of_nonneg natural] at divides
      exact_mod_cast divides
  rw [sizeForLimits] at found
  obtain ⟨down, scaledDown, found⟩ := bind_eq_ok.mp found
  obtain ⟨up, scaledUp, found⟩ := bind_eq_ok.mp found
  split_ifs at found
  cases found
  have divides := scaleUp_dvd multiple (scaleDown_dvd multiple whole scaledDown) scaledUp
  exact_mod_cast divides

/-- The final number of slices is that of the final size. -/
theorem chosen_holds {size : ℤ} {inputSlices : ℕ} (result : o.chosen = .ok (size, inputSlices)) :
    0 < size ∧ inputSlices = o.slices size.toNat := by
  rw [chosen] at result
  obtain ⟨wanted, ready, result⟩ := bind_eq_ok.mp result
  obtain ⟨first, sized, result⟩ := bind_eq_ok.mp result
  obtain ⟨multiple, given, least, most⟩ := wanted_holds ready
  have whole : (o.sliceSizeMultiple : ℤ) ∣ first := by
    rw [firstSize] at sized
    split_ifs at sized with count
    · exact sizeForCount_dvd multiple least most sized
    · exact sizeForLimits_dvd multiple given (not_lt.mp count) sized
  split_ifs at result with none
  obtain ⟨reduced, reduce, result⟩ := bind_eq_ok.mp result
  obtain ⟨_, -, result⟩ := bind_eq_ok.mp result
  cases result
  obtain ⟨positive, kept⟩ := reduceSize_slices multiple (by omega) whole reduce
  exact ⟨positive, kept.symm⟩

/-- When both limits are numbers of slices, the first size is the final one. -/
theorem chosen_of_firstSize {wanted : Wanted} (ready : o.wanted = .ok wanted)
    (noMin : wanted.minSliceSize ≤ 0) (noMax : wanted.maxSliceSize ≤ 0) {size : ℕ} (positive : 0 < size)
    (first : o.firstSize wanted = .ok (size : ℤ)) :
    o.chosen =
      if o.slices size > 32768 then .error (.tooManySlices (o.slices size))
      else if o.slices size < -wanted.minSliceSize ∨ o.slices size > -wanted.maxSliceSize then
        .error .limits
      else .ok ((size : ℤ), o.slices size) := by
  have kept : o.reduceSize wanted size (o.slices size) = .ok (size : ℤ) := by
    rw [reduceSize, if_neg (fun both => by omega)]
  have checked : wanted.check size (o.slices size) =
      if o.slices size > 32768 then .error (.tooManySlices (o.slices size))
      else if o.slices size < -wanted.minSliceSize ∨ o.slices size > -wanted.maxSliceSize then
        .error .limits
      else .ok () := by
    rw [Wanted.check]
    congr 2
    refine propext ⟨?_, ?_⟩
    · rintro (low | none | high | none)
      · exact .inl low.2
      · omega
      · exact .inr high.2
      · omega
    · rintro (low | high)
      · exact .inl ⟨noMin, low⟩
      · exact .inr (.inr (.inl ⟨noMax, high⟩))
  rw [chosen, ready, ok_bind, first, ok_bind, if_neg (by omega)]
  dsimp only
  rw [Int.toNat_natCast, ← slices, kept, ok_bind, checked]
  split_ifs <;> rfl

/-! ## A number of slices -/

/-- A number of slices that some multiple gives is found. -/
theorem sizeForCount_found {numSlices : ℕ} {wanted : Wanted} (multiple : 0 < o.sliceSizeMultiple)
    (count : wanted.sliceSize = -(numSlices : ℤ))
    (noMin : wanted.minSliceSize ≤ 0) (noMax : wanted.maxSliceSize ≤ 0)
    (enough : o.dataFiles ≤ numSlices) (some : 0 < numSlices)
    (exact_size : ∃ k ≥ 1, o.slices (k * o.sliceSizeMultiple) = numSlices) :
    ∃ k ≥ 1, o.sizeForCount wanted = .ok (k * o.sliceSizeMultiple : ℕ) ∧
      o.slices (k * o.sliceSizeMultiple) = numSlices := by
  obtain ⟨k, one, same⟩ := exact_size
  have data : 0 < o.dataFiles := by
    by_contra none
    rw [slices_empty (by omega) (Nat.mul_pos one multiple)] at same
    omega
  have natural : (-wanted.sliceSize).toNat = numSlices := by
    rw [count, neg_neg]
    exact Int.toNat_natCast _
  obtain ⟨c, d, found, low, between, close, upper, lower⟩ := bounds_multiples numSlices multiple data
  have clip (size : ℤ) : wanted.clip size = size := by
    rw [Wanted.clip]
    rw [if_neg (fun both => by omega), if_neg (fun both => by omega)]
  rw [sizeForCount]
  rw [natural, if_neg (by omega), if_neg (by omega), found, ok_bind, pickBound, ← slices, ← slices]
  dsimp only
  by_cases lowerSame : o.slices (c * o.sliceSizeMultiple) = numSlices
  · rw [if_pos lowerSame, ok_bind, clip]
    exact ⟨c, low, rfl, lowerSame⟩
  · have upperSame : o.slices (d * o.sliceSizeMultiple) = numSlices := by
      refine le_antisymm (upper enough) ?_
      obtain reached | equal := beyond_lower one close lower multiple same.le
      · rw [← same]
        exact slices_le (Nat.mul_pos (by omega) multiple) (Nat.mul_le_mul_right _ reached)
      · rw [equal] at same
        exact absurd same lowerSame
    rw [if_neg lowerSame, if_pos upperSame, ok_bind, clip]
    exact ⟨d, by omega, rfl, upperSame⟩

section Count

variable {numSlices : ℕ} (files : o.dataFiles ≤ 32768) (whole : o.sliceSizeMultiple % 4 = 0)
  (multiple : 0 < o.sliceSizeMultiple)

include files whole multiple

/-- Without limits, a number of slices stays. -/
theorem wanted_count (noMin : o.minSliceSize = none) (noMax : o.maxSliceSize = none)
    (count : o.sliceSize.value < 0) :
    o.wanted = .ok ⟨o.sliceSize.value, o.sliceSize.value, o.sliceSize.value⟩ := by
  have checked : o.checkSize = .ok () := by
    rw [checkSize, if_neg (by omega), if_neg (by omega), if_neg (fun both => by omega)]
  rw [SliceSizeOpts.wanted, checked, checkMin, checkMax, checkRange, noMin, noMax]
  dsimp only
  rw [ok_bind, ok_bind, ok_bind, ok_bind, adjustMin, adjustMax, noMin, noMax]
  rfl

/-- The constructor picks a size for the number, which the format can still refuse. -/
theorem chosen_count (noMin : o.minSliceSize = none) (noMax : o.maxSliceSize = none)
    (count : o.sliceSize.value = -(numSlices : ℤ)) (enough : o.dataFiles ≤ numSlices)
    (some : 0 < numSlices)
    (exact_size : ∃ k ≥ 1, o.slices (k * o.sliceSizeMultiple) = numSlices) :
    ∃ k ≥ 1, o.slices (k * o.sliceSizeMultiple) = numSlices ∧
      o.chosen =
        if numSlices > 32768 then .error (.tooManySlices numSlices)
        else .ok (((k * o.sliceSizeMultiple : ℕ) : ℤ), numSlices) := by
  have ready := wanted_count files whole multiple noMin noMax (by omega)
  obtain ⟨k, one, found, same⟩ := @sizeForCount_found o numSlices
    ⟨o.sliceSize.value, o.sliceSize.value, o.sliceSize.value⟩ multiple count (by simp only; omega)
    (by simp only; omega) enough some exact_size
  refine ⟨k, one, same, ?_⟩
  have first : o.firstSize ⟨o.sliceSize.value, o.sliceSize.value, o.sliceSize.value⟩ =
      .ok ((k * o.sliceSizeMultiple : ℕ) : ℤ) := by
    rw [firstSize, if_pos (by simp only; omega), found]
  rw [chosen_of_firstSize ready (by simp only; omega) (by simp only; omega) (Nat.mul_pos one multiple) first,
    same]
  simp only
  rw [if_neg (by omega : ¬ ((numSlices : ℤ) < -o.sliceSize.value ∨ (numSlices : ℤ) > -o.sliceSize.value))]

end Count

/-! ## Limits that are numbers of slices -/

theorem any_lt {size : ℕ} (positive : 0 < size) (limit : ℕ) :
    ((o.slicesOf size).any (· < (limit : ℕ∞)) = true) ↔ o.slices size < limit := by
  rw [slicesOf_eq positive, Option.any_some, decide_eq_true_eq]
  exact Nat.cast_lt

theorem any_gt {size : ℕ} (positive : 0 < size) (limit : ℕ) :
    ((o.slicesOf size).any (· > (limit : ℕ∞)) = true) ↔ limit < o.slices size := by
  rw [slicesOf_eq positive, Option.any_some, decide_eq_true_eq]
  exact Nat.cast_lt

theorem any_ge {size : ℕ} (positive : 0 < size) (limit : ℕ) :
    ((o.slicesOf size).any (· ≥ (limit : ℕ∞)) = true) ↔ limit ≤ o.slices size := by
  rw [slicesOf_eq positive, Option.any_some, decide_eq_true_eq]
  exact Nat.cast_le

theorem any_le {size : ℕ} (positive : 0 < size) (limit : ℕ) :
    ((o.slicesOf size).any (· ≤ (limit : ℕ∞)) = true) ↔ o.slices size ≤ limit := by
  rw [slicesOf_eq positive, Option.any_some, decide_eq_true_eq]
  exact Nat.cast_le

theorem toNat_neg_neg (limit : ℕ) : (- -(limit : ℤ)).toNat = limit := by
  rw [neg_neg]
  exact Int.toNat_natCast limit

/-- Enough slices are kept. -/
theorem scaleDown_kept {low size : ℕ} (positive : 0 < size) (enough : low ≤ o.slices size) :
    o.scaleDown (-low) size = .ok size := by
  rw [scaleDown, toNat_neg_neg, if_neg]
  rintro ⟨-, few⟩
  rw [any_lt positive] at few
  omega

theorem scaleUp_kept {high size : ℕ} (positive : 0 < size) (enough : o.slices size ≤ high) :
    o.scaleUp (-high) size = .ok size := by
  rw [scaleUp, toNat_neg_neg, if_neg]
  rintro ⟨-, many⟩
  rw [any_gt positive] at many
  omega

section Limits

variable (multiple : 0 < o.sliceSizeMultiple)

include multiple

/-- After scaling down there are enough slices, unless no multiple gives enough. -/
theorem scaleDown_enough (low : ℕ) {k : ℕ} (one : 1 ≤ k) (data : 0 < o.dataFiles) :
    ∃ scaled ≥ 1, o.scaleDown (-low) (k * o.sliceSizeMultiple) = .ok (scaled * o.sliceSizeMultiple) ∧
      (low ≤ o.slices (scaled * o.sliceSizeMultiple) ∨
        ∀ j ≥ 1, o.slices (j * o.sliceSizeMultiple) < low) := by
  have positive := Nat.mul_pos one multiple
  by_cases enough : low ≤ o.slices (k * o.sliceSizeMultiple)
  · exact ⟨k, one, scaleDown_kept positive enough, .inl enough⟩
  · obtain ⟨c, d, found, least, between, close, -, lower⟩ := bounds_multiples low multiple data
    have positiveLower : 0 < c * o.sliceSizeMultiple := Nat.mul_pos least multiple
    rw [scaleDown, toNat_neg_neg, if_pos ⟨by omega, (any_lt positive low).mpr (not_le.mp enough)⟩,
      found, ok_bind]
    dsimp only
    by_cases reached : low ≤ o.slices (c * o.sliceSizeMultiple)
    · rw [if_pos ((any_ge positiveLower low).mpr reached)]
      exact ⟨c, least, rfl, .inl reached⟩
    · rw [if_neg (mt (any_ge positiveLower low).mp reached)]
      refine ⟨d, by omega, rfl, .inr fun j some => ?_⟩
      obtain rfl | more := lower
      · have larger := @slices_le o _ _ positiveLower (Nat.mul_le_mul_right o.sliceSizeMultiple some)
        omega
      · omega

/-- After scaling up there are few enough slices, as many as any multiple gives, unless there are too many
files. -/
theorem scaleUp_enough (high : ℕ) {k : ℕ} (one : 1 ≤ k) (data : 0 < o.dataFiles) :
    ∃ scaled ≥ 1, o.scaleUp (-high) (k * o.sliceSizeMultiple) = .ok (scaled * o.sliceSizeMultiple) ∧
      (o.slices (k * o.sliceSizeMultiple) ≤ high → scaled = k) ∧
      (high < o.slices (k * o.sliceSizeMultiple) → o.dataFiles ≤ high →
        o.slices (scaled * o.sliceSizeMultiple) ≤ high ∧
          ∀ j ≥ 1, o.slices (j * o.sliceSizeMultiple) ≤ high →
            o.slices (j * o.sliceSizeMultiple) ≤ o.slices (scaled * o.sliceSizeMultiple)) := by
  have positive := Nat.mul_pos one multiple
  by_cases enough : o.slices (k * o.sliceSizeMultiple) ≤ high
  · exact ⟨k, one, scaleUp_kept positive enough, fun _ => rfl, fun many => by omega⟩
  · obtain ⟨c, d, found, least, between, close, upper, lower⟩ := bounds_multiples high multiple data
    have positiveUpper : 0 < d * o.sliceSizeMultiple := Nat.mul_pos (by omega) multiple
    rw [scaleUp, toNat_neg_neg, if_pos ⟨by omega, (any_gt positive high).mpr (not_le.mp enough)⟩,
      found, ok_bind]
    dsimp only
    by_cases reached : o.slices (d * o.sliceSizeMultiple) ≤ high
    · rw [if_pos ((any_le positiveUpper high).mpr reached)]
      refine ⟨d, by omega, rfl, fun few => absurd few enough, fun _ _ => ⟨reached, fun j some few => ?_⟩⟩
      have beyond : d ≤ j := by
        refine (beyond_lower some close lower multiple few).resolve_right ?_
        rintro rfl
        obtain rfl | more := lower
        · have larger := @slices_le o _ _ (Nat.mul_pos some multiple)
            (Nat.mul_le_mul_right o.sliceSizeMultiple one)
          omega
        · omega
      exact slices_le positiveUpper (Nat.mul_le_mul_right _ beyond)
    · rw [if_neg (mt (any_le positiveUpper high).mp reached)]
      exact ⟨c, least, rfl, fun few => absurd few enough, fun _ few => absurd (upper few) reached⟩

/-- A size whose number of slices is within the limits is found if there is one. -/
theorem sizeForLimits_found {low high : ℕ} {size : ℕ} (given : 0 < size)
    (whole : o.sliceSizeMultiple ∣ size)
    (within : ∃ j ≥ 1, low ≤ o.slices (j * o.sliceSizeMultiple) ∧
      o.slices (j * o.sliceSizeMultiple) ≤ high) :
    ∃ k ≥ 1, o.sizeForLimits ⟨size, -low, -high⟩ = .ok ((k * o.sliceSizeMultiple : ℕ) : ℤ) ∧
      low ≤ o.slices (k * o.sliceSizeMultiple) ∧ o.slices (k * o.sliceSizeMultiple) ≤ high := by
  obtain ⟨first, rfl⟩ := whole
  rw [mul_comm o.sliceSizeMultiple] at given ⊢
  have one : 1 ≤ first := Nat.pos_of_mul_pos_right given
  obtain ⟨j, some, atLeast, atMost⟩ := within
  have finish {k : ℕ} (least : 1 ≤ k) (enough : low ≤ o.slices (k * o.sliceSizeMultiple)) :
      ¬ ((-low : ℤ) ≤ 0 ∧ (o.slicesOf (k * o.sliceSizeMultiple)).any
        (· < (((- -(low : ℤ)).toNat : ℕ) : ℕ∞)) = true) := by
    rintro ⟨-, few⟩
    rw [toNat_neg_neg, any_lt (Nat.mul_pos least multiple)] at few
    omega
  obtain none | data := Nat.eq_zero_or_pos o.dataFiles
  · rw [slices_empty none (Nat.mul_pos some multiple)] at atLeast
    have zero := slices_empty none given
    refine ⟨first, one, ?_, by omega, by omega⟩
    rw [sizeForLimits]
    simp only [Int.toNat_natCast]
    rw [scaleDown_kept given (by omega), ok_bind, scaleUp_kept given (by omega), ok_bind,
      if_neg (finish one (by omega))]
    rfl
  · obtain ⟨down, oneDown, downEq, reached⟩ := scaleDown_enough multiple low one data
    have enough : low ≤ o.slices (down * o.sliceSizeMultiple) := by
      refine reached.resolve_right fun none => ?_
      have few := none j some
      omega
    obtain ⟨up, oneUp, upEq, kept, moved⟩ := scaleUp_enough multiple high oneDown data
    have both : low ≤ o.slices (up * o.sliceSizeMultiple) ∧
        o.slices (up * o.sliceSizeMultiple) ≤ high := by
      by_cases few : o.slices (down * o.sliceSizeMultiple) ≤ high
      · rw [kept few]
        exact ⟨enough, few⟩
      · obtain ⟨fits, most⟩ := moved (not_le.mp few)
          ((dataFiles_le (Nat.mul_pos some multiple)).trans atMost)
        exact ⟨atLeast.trans (most j some atMost), fits⟩
    refine ⟨up, oneUp, ?_, both⟩
    rw [sizeForLimits]
    simp only [Int.toNat_natCast]
    rw [downEq, ok_bind, upEq, ok_bind, if_neg (finish oneUp both.1)]
    rfl

end Limits

/-- A given size with limits that are numbers of slices. -/
structure Limited (o : SliceSizeOpts) (size low high : ℕ) : Prop where
  files : o.dataFiles ≤ 32768
  multiple : o.sliceSizeMultiple % 4 = 0 ∧ 0 < o.sliceSizeMultiple
  given : o.sliceSize.value = size
  positive : 0 < size
  whole : o.sliceSizeMultiple ∣ size
  least : ∃ unit, o.minSliceSize = some ⟨-low, unit⟩
  most : ∃ unit, o.maxSliceSize = some ⟨-high, unit⟩

section Chosen

variable {size low high : ℕ} (limited : o.Limited size low high)

include limited

theorem wanted_limits :
    o.wanted = if high < low then .error (.countRange low high) else .ok ⟨size, -low, -high⟩ := by
  obtain ⟨files, ⟨four, positiveMultiple⟩, given, positive, whole, ⟨minUnit, least⟩, ⟨maxUnit, most⟩⟩ := limited
  have checked : o.checkSize = .ok () := by
    have divides : o.sliceSize.value % o.sliceSizeMultiple = 0 := by
      rw [given]
      exact_mod_cast Nat.mod_eq_zero_of_dvd whole
    rw [checkSize, if_neg (by omega), if_neg (by omega), if_neg (fun both => both.2 divides)]
  have noSize : ¬ (decide (o.sliceSize.value < 0) = decide ((-low : ℤ) ≤ 0)) := by
    rw [given, decide_eq_false (by omega), decide_eq_true (by omega)]
    exact Bool.noConfusion
  have noSizeMax : ¬ (decide (o.sliceSize.value < 0) = decide ((-high : ℤ) ≤ 0)) := by
    rw [given, decide_eq_false (by omega), decide_eq_true (by omega)]
    exact Bool.noConfusion
  have minChecked : o.checkMin = .ok false := by
    rw [checkMin, least]
    dsimp only
    rw [if_neg (fun both => noSize both.1.1), if_neg (fun both => by omega),
      decide_eq_false (fun both => noSize both.1)]
  have maxChecked : o.checkMax = .ok false := by
    rw [checkMax, most]
    dsimp only
    rw [if_neg (fun both => noSizeMax both.1.1), if_neg (fun both => by omega),
      decide_eq_false (fun both => noSizeMax both.1)]
  have range : o.checkRange = if high < low then .error (.countRange low high) else .ok () := by
    rw [checkRange, least, most]
    dsimp only
    rw [abs_neg, abs_neg, Nat.abs_cast, Nat.abs_cast, neg_neg, neg_neg]
    by_cases reversed : high < low
    · rw [if_pos reversed, if_pos ⟨by rw [decide_eq_true (by omega), decide_eq_true (by omega)],
        by exact_mod_cast reversed⟩, if_pos (by omega)]
    · rw [if_neg reversed, if_neg (fun both => reversed (by exact_mod_cast both.2))]
  rw [SliceSizeOpts.wanted, checked, minChecked, maxChecked, ok_bind, ok_bind, ok_bind, range, adjustMin,
    least]
  by_cases reversed : high < low
  · rw [if_pos reversed, if_pos reversed]
    rfl
  · rw [if_neg reversed, if_neg reversed, ok_bind]
    dsimp only
    rw [adjustMax, most, given]
    rfl

/-- The constructor finds a size within the limits, which the format can still refuse. -/
theorem chosen_limits (within : ∃ j ≥ 1, low ≤ o.slices (j * o.sliceSizeMultiple) ∧
      o.slices (j * o.sliceSizeMultiple) ≤ high) :
    ∃ k ≥ 1, low ≤ o.slices (k * o.sliceSizeMultiple) ∧ o.slices (k * o.sliceSizeMultiple) ≤ high ∧
      o.chosen =
        if o.slices (k * o.sliceSizeMultiple) > 32768 then
          .error (.tooManySlices (o.slices (k * o.sliceSizeMultiple)))
        else .ok (((k * o.sliceSizeMultiple : ℕ) : ℤ), o.slices (k * o.sliceSizeMultiple)) := by
  have ready := wanted_limits limited
  have ordered : ¬ high < low := by
    obtain ⟨j, -, atLeast, atMost⟩ := within
    omega
  rw [if_neg ordered] at ready
  obtain ⟨k, one, found, atLeast, atMost⟩ :=
    sizeForLimits_found limited.multiple.2 limited.positive limited.whole within
  refine ⟨k, one, atLeast, atMost, ?_⟩
  have first : o.firstSize ⟨size, -low, -high⟩ = .ok ((k * o.sliceSizeMultiple : ℕ) : ℤ) := by
    rw [firstSize, if_neg (by simp only; omega), found]
  rw [chosen_of_firstSize ready (by simp only; omega) (by simp only; omega)
    (Nat.mul_pos one limited.multiple.2) first]
  simp only [neg_neg]
  rw [if_neg (by omega : ¬ ((o.slices (k * o.sliceSizeMultiple) : ℤ) < low ∨
    (o.slices (k * o.sliceSizeMultiple) : ℤ) > high))]

/-- Otherwise it throws. -/
theorem chosen_limits_none (none : ¬ ∃ j ≥ 1, low ≤ o.slices (j * o.sliceSizeMultiple) ∧
      o.slices (j * o.sliceSizeMultiple) ≤ high) :
    ∃ error, o.chosen = .error error ∧ error ≠ .endless := by
  have ready := wanted_limits limited
  have multiple := limited.multiple.2
  have given := limited.positive
  by_cases reversed : high < low
  · rw [if_pos reversed] at ready
    exact ⟨_, by rw [chosen, ready, error_bind], SliceSizeError.noConfusion⟩
  rw [if_neg reversed] at ready
  obtain ⟨k, whole⟩ := limited.whole
  rw [mul_comm] at whole
  rw [whole] at ready given
  have one : 1 ≤ k := Nat.pos_of_mul_pos_right given
  obtain empty | data := Nat.eq_zero_or_pos o.dataFiles
  · have noSlices := slices_empty empty (Nat.mul_pos one multiple)
    have noSlicesOne := slices_empty empty multiple
    have wanted : 0 < low := by
      by_contra zero
      exact none ⟨k, one, by omega, by omega⟩
    have down : o.scaleDown (-low) (k * o.sliceSizeMultiple) = .ok 0 := by
      rw [scaleDown, toNat_neg_neg, if_pos ⟨by omega, (any_lt (Nat.mul_pos one multiple) low).mpr
        (by omega)⟩, bounds_empty low multiple empty, ok_bind]
      dsimp only
      rw [if_neg (mt (any_ge multiple low).mp (by omega))]
      rfl
    have zero : o.slicesOf 0 = some 0 ∨ o.slicesOf 0 = Option.none := slicesOf_zero empty
    have up : o.scaleUp (-high) 0 = .ok 0 := by
      rw [scaleUp, if_neg]
      rintro ⟨-, many⟩
      obtain same | same := zero
      · rw [same, Option.any_some, decide_eq_true_eq] at many
        exact not_lt_zero many
      · rw [same] at many
        exact Bool.noConfusion many
    have sized : o.firstSize ⟨((k * o.sliceSizeMultiple : ℕ) : ℤ), -low, -high⟩ = .error .constraints ∨
        o.firstSize ⟨((k * o.sliceSizeMultiple : ℕ) : ℤ), -low, -high⟩ = .ok 0 := by
      rw [firstSize, if_neg (by simp only; omega), sizeForLimits]
      simp only [Int.toNat_natCast]
      rw [down, ok_bind, up, ok_bind]
      split
      · exact .inl rfl
      · exact .inr rfl
    obtain failed | sized := sized
    · exact ⟨_, by rw [chosen, ready, ok_bind, failed, error_bind], SliceSizeError.noConfusion⟩
    · exact ⟨_, by rw [chosen, ready, ok_bind, sized, ok_bind, if_pos (by decide)],
        SliceSizeError.noConfusion⟩
  · obtain ⟨down, oneDown, downEq, -⟩ := scaleDown_enough multiple low one data
    obtain ⟨up, oneUp, upEq, -⟩ := scaleUp_enough multiple high oneDown data
    have positive := Nat.mul_pos oneUp multiple
    have sized : o.firstSize ⟨((k * o.sliceSizeMultiple : ℕ) : ℤ), -low, -high⟩ =
        if o.slices (up * o.sliceSizeMultiple) < low then .error .constraints
        else .ok ((up * o.sliceSizeMultiple : ℕ) : ℤ) := by
      rw [firstSize, if_neg (by simp only; omega), sizeForLimits]
      simp only [Int.toNat_natCast]
      rw [downEq, ok_bind, upEq, ok_bind, toNat_neg_neg]
      simp only [any_lt positive]
      by_cases few : o.slices (up * o.sliceSizeMultiple) < low
      · rw [if_pos few, if_pos ⟨by omega, few⟩]
      · rw [if_neg few, if_neg (fun both => few both.2)]
        rfl
    by_cases few : o.slices (up * o.sliceSizeMultiple) < low
    · rw [if_pos few] at sized
      exact ⟨_, by rw [chosen, ready, ok_bind, sized, error_bind], SliceSizeError.noConfusion⟩
    · rw [if_neg few] at sized
      have many : ¬ o.slices (up * o.sliceSizeMultiple) ≤ high :=
        fun fits => none ⟨up, oneUp, not_lt.mp few, fits⟩
      rw [chosen_of_firstSize ready (by simp only; omega) (by simp only; omega) positive sized]
      split_ifs with large limits
      · exact ⟨_, rfl, SliceSizeError.noConfusion⟩
      · exact ⟨_, rfl, SliceSizeError.noConfusion⟩
      · simp only [neg_neg] at limits
        omega

end Chosen

/-! ## All of it -/

theorem ceil_div (file : ℕ) {size : ℕ} (positive : 0 < size) :
    (file + size - 1) / size = ⌈(file / size : ℚ)⌉₊ := by
  refine eq_of_forall_ge_iff fun bound => ?_
  rw [Nat.ceil_le, div_le_iff₀ (by exact_mod_cast positive), Nat.div_le_iff_le_mul_add_pred positive,
    mul_comm size]
  constructor
  · intro few
    exact_mod_cast (by omega : file ≤ bound * size)
  · intro few
    have natural : file ≤ bound * size := by exact_mod_cast few
    omega

theorem slices_eq_ceil (size : ℕ) (positive : 0 < size) :
    o.slices size = (o.fileInfo.map fun (file : ℕ) => ⌈(file / size : ℚ)⌉₊).sum := by
  rw [slices, calcNumSlicesForFiles]
  congr 1
  exact List.map_congr_left fun file _ => ceil_div file positive

/-- The search ends with neighbours around a number of slices. A number that some multiple gives is
reached, limits that some multiple meets are met, and the final number of slices is that of the final
size. The format allows no more than 32768 slices. -/
theorem chooses_size :
    (∀ (numSlices : ℕ) (fileInfo : List ℕ) (sizeMultiple : ℕ), 0 < sizeMultiple →
      (∃ size ∈ fileInfo, size ≠ 0) → (fileInfo.filter (· ≠ 0)).length ≤ numSlices →
      ∃ c d, calcSliceSizeForFiles numSlices fileInfo sizeMultiple =
          some (c * sizeMultiple, d * sizeMultiple) ∧
        1 ≤ c ∧ (d = c ∨ d = c + 1) ∧
        calcNumSlicesForFiles fileInfo (d * sizeMultiple) ≤ numSlices ∧
        (c = 1 ∨ numSlices < calcNumSlicesForFiles fileInfo (c * sizeMultiple))) ∧
    (∀ (o : SliceSizeOpts) (numSlices : ℕ), o.dataFiles ≤ 32768 → o.sliceSizeMultiple % 4 = 0 →
      0 < o.sliceSizeMultiple → o.minSliceSize = none → o.maxSliceSize = none →
      o.sliceSize.value = -(numSlices : ℤ) → o.dataFiles ≤ numSlices → 0 < numSlices →
      (∃ k ≥ 1, o.slices (k * o.sliceSizeMultiple) = numSlices) →
      ∃ k ≥ 1, o.slices (k * o.sliceSizeMultiple) = numSlices ∧
        o.chosen =
          if numSlices > 32768 then .error (.tooManySlices numSlices)
          else .ok (((k * o.sliceSizeMultiple : ℕ) : ℤ), numSlices)) ∧
    (∀ (o : SliceSizeOpts) (size low high : ℕ), o.Limited size low high →
      ((∃ j ≥ 1, low ≤ o.slices (j * o.sliceSizeMultiple) ∧
          o.slices (j * o.sliceSizeMultiple) ≤ high) →
        ∃ k ≥ 1, low ≤ o.slices (k * o.sliceSizeMultiple) ∧
          o.slices (k * o.sliceSizeMultiple) ≤ high ∧
          o.chosen =
            if o.slices (k * o.sliceSizeMultiple) > 32768 then
              .error (.tooManySlices (o.slices (k * o.sliceSizeMultiple)))
            else .ok (((k * o.sliceSizeMultiple : ℕ) : ℤ), o.slices (k * o.sliceSizeMultiple))) ∧
      ((¬ ∃ j ≥ 1, low ≤ o.slices (j * o.sliceSizeMultiple) ∧
          o.slices (j * o.sliceSizeMultiple) ≤ high) →
        ∃ error, o.chosen = .error error ∧ error ≠ .endless)) ∧
    (∀ (o : SliceSizeOpts) (size : ℤ) (inputSlices : ℕ), o.chosen = .ok (size, inputSlices) →
      0 < size ∧ inputSlices = (o.fileInfo.map fun (file : ℕ) => ⌈(file / size.toNat : ℚ)⌉₊).sum) := by
  refine ⟨?_, ?_, ?_, ?_⟩
  · intro numSlices fileInfo sizeMultiple positive data enough
    obtain ⟨c, d, found, one, between, close, upper, lower⟩ :=
      calcSliceSizeForFiles_multiples numSlices positive data
    exact ⟨c, d, found, one, by omega, upper enough, lower⟩
  · intro o numSlices files four multiple noMin noMax count enough some exact_size
    exact chosen_count files four multiple noMin noMax count enough some exact_size
  · intro o size low high limited
    exact ⟨chosen_limits limited, chosen_limits_none limited⟩
  · intro o size inputSlices result
    obtain ⟨positive, same⟩ := chosen_holds result
    exact ⟨positive, by rw [same, slices_eq_ceil _ (by omega)]⟩

/-- Two files that a size of one megabyte cuts into two slices, where five to seven are allowed. -/
def fewSlices : SliceSizeOpts where
  fileInfo := [1048576, 700000]
  sliceSizeMultiple := 4
  sliceSize := SliceSpec.ofNumber 1048576
  minSliceSize := some (SliceSpec.ofLimit (-5))
  maxSliceSize := some (SliceSpec.ofLimit (-7))

/-- A search for three slices in the two files, and a size that the limits move. -/
theorem chooses_size_twoFiles :
    (∃ c d, calcSliceSizeForFiles 3 [1048576, 700000] 4 = some (c * 4, d * 4) ∧ 1 ≤ c ∧
      (d = c ∨ d = c + 1) ∧ calcNumSlicesForFiles [1048576, 700000] (d * 4) ≤ 3 ∧
      (c = 1 ∨ 3 < calcNumSlicesForFiles [1048576, 700000] (c * 4))) ∧
    ∃ k ≥ 1, 5 ≤ fewSlices.slices (k * 4) ∧ fewSlices.slices (k * 4) ≤ 7 ∧
      fewSlices.chosen = .ok (((k * 4 : ℕ) : ℤ), fewSlices.slices (k * 4)) := by
  obtain ⟨searched, -, limited, -⟩ := chooses_size
  refine ⟨searched 3 [1048576, 700000] 4 (by decide) ⟨700000, by decide, by decide⟩ (by decide), ?_⟩
  have given : fewSlices.Limited 1048576 5 7 :=
    ⟨by decide, ⟨rfl, by decide⟩, rfl, by decide, by decide, ⟨_, rfl⟩, ⟨_, rfl⟩⟩
  obtain ⟨k, one, least, most, chosen⟩ :=
    (limited fewSlices 1048576 5 7 given).1 ⟨75000, by decide, by decide, by decide⟩
  exact ⟨k, one, least, most, chosen.trans (if_neg (by omega))⟩

/-- One file that would be cut into 40000 slices. -/
def manySlices : SliceSizeOpts where
  fileInfo := [160000]
  sliceSizeMultiple := 4
  sliceSize := SliceSpec.ofNumber (-40000)
  minSliceSize := none
  maxSliceSize := none

/-- Without files the lower of the sizes, zero, has no more slices than asked for, and 40000 slices are
refused though a multiple gives them. -/
theorem chooses_size_refuted :
    (¬ ∀ (numSlices : ℕ) (fileInfo : List ℕ) (sizeMultiple : ℕ), 0 < sizeMultiple →
      (fileInfo.filter (· ≠ 0)).length ≤ numSlices →
      ∃ lbound ubound, calcSliceSizeForFiles numSlices fileInfo sizeMultiple = some (lbound, ubound) ∧
        (numSlices < calcNumSlicesForFiles fileInfo (min lbound ubound) ∨
          min lbound ubound = sizeMultiple)) ∧
    manySlices.slices (1 * manySlices.sliceSizeMultiple) = 40000 ∧
    manySlices.chosen = .error (.tooManySlices 40000) := by
  refine ⟨fun all => ?_, by decide +kernel, by decide +kernel⟩
  obtain ⟨lbound, ubound, found, more⟩ := all 0 [] 4 (by decide) (by decide)
  have none : calcSliceSizeForFiles 0 [] 4 = some (4, 0) := by decide
  rw [none] at found
  cases found
  exact absurd more (by decide)

end SliceSizeOpts

end Par3
