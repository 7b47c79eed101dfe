import Mathlib.Algebra.BigOperators.Group.List.Basic
import Mathlib.Data.ENat.Basic
import Mathlib.Tactic

/-!
# The size of a slice

The size is given, or a number of slices for which a size is looked for. Limits are sizes or numbers of
slices too: where they are of the other kind, the size is moved into them. Sizes are small enough for
doubles to tell quotients apart.
-/
namespace Par3

def calcNumSlicesForFiles (fileInfo : List ℕ) (sliceSize : ℕ) : ℕ :=
  (fileInfo.map fun size => (size + sliceSize - 1) / sliceSize).sum

/-- The loop of `calcSliceSizeForFiles`, in at most so many rounds. -/
def calcSliceSizeLoop (numSlices : ℕ) (fileInfo : List ℕ) (sizeMultiple : ℕ) :
    ℕ → ℕ → ℕ → Option (ℕ × ℕ)
  | 0, _, _ => none
  | rounds + 1, lbound, ubound =>
    if lbound + sizeMultiple < ubound then
      let mid := (ubound + lbound) / (sizeMultiple * 2) * sizeMultiple
      if numSlices ≥ calcNumSlicesForFiles fileInfo mid then
        calcSliceSizeLoop numSlices fileInfo sizeMultiple rounds lbound mid
      else calcSliceSizeLoop numSlices fileInfo sizeMultiple rounds mid ubound
    else some (lbound, ubound)

/-- The largest file, as a multiple of the size. -/
def largestSize (fileInfo : List ℕ) (sizeMultiple : ℕ) : ℕ :=
  (fileInfo.foldl max 0 + sizeMultiple - 1) / sizeMultiple * sizeMultiple

def calcSliceSizeForFiles (numSlices : ℕ) (fileInfo : List ℕ) (sizeMultiple : ℕ) : Option (ℕ × ℕ) :=
  calcSliceSizeLoop numSlices fileInfo sizeMultiple (largestSize fileInfo sizeMultiple + 1) sizeMultiple
    (largestSize fileInfo sizeMultiple)

/-! ## The search -/

theorem slices_antitone (fileInfo : List ℕ) {small large : ℕ} (positive : 0 < small)
    (larger : small ≤ large) :
    calcNumSlicesForFiles fileInfo large ≤ calcNumSlicesForFiles fileInfo small := by
  refine List.sum_le_sum fun size _ => ?_
  rw [Nat.div_le_iff_le_mul_add_pred (by omega)]
  have covers := @Nat.lt_div_mul_add (size + small - 1) small positive
  have wider := Nat.mul_le_mul_right ((size + small - 1) / small) larger
  rw [mul_comm small] at wider
  omega

/-- Every file with data has a slice. -/
theorem le_slices (fileInfo : List ℕ) {sliceSize : ℕ} (positive : 0 < sliceSize) :
    (fileInfo.filter (· ≠ 0)).length ≤ calcNumSlicesForFiles fileInfo sliceSize := by
  induction fileInfo with
  | nil => exact Nat.le_refl 0
  | cons size rest ih =>
    have sum : calcNumSlicesForFiles (size :: rest) sliceSize =
        (size + sliceSize - 1) / sliceSize + calcNumSlicesForFiles rest sliceSize := List.sum_cons
    rw [sum, List.filter_cons]
    split
    case isTrue some =>
      have data : size ≠ 0 := by simpa using some
      have one : 1 ≤ (size + sliceSize - 1) / sliceSize := Nat.div_pos (by omega) positive
      rw [List.length_cons, Nat.add_comm]
      exact Nat.add_le_add one ih
    case isFalse none => exact ih.trans (Nat.le_add_left _ _)

/-- A size that no file is above. -/
theorem slices_largest (fileInfo : List ℕ) {sliceSize : ℕ} (positive : 0 < sliceSize)
    (largest : ∀ size ∈ fileInfo, size ≤ sliceSize) :
    calcNumSlicesForFiles fileInfo sliceSize = (fileInfo.filter (· ≠ 0)).length := by
  induction fileInfo with
  | nil => rfl
  | cons size rest ih =>
    have sum : calcNumSlicesForFiles (size :: rest) sliceSize =
        (size + sliceSize - 1) / sliceSize + calcNumSlicesForFiles rest sliceSize := List.sum_cons
    have within := largest size List.mem_cons_self
    have others := ih fun other member => largest other (List.mem_cons_of_mem _ member)
    rw [sum, others, List.filter_cons]
    split
    case isTrue some =>
      have data : size ≠ 0 := by simpa using some
      rw [Nat.div_eq_of_lt_le (k := 1) (by omega) (by omega), List.length_cons, Nat.add_comm]
    case isFalse none =>
      have empty : size = 0 := by simpa using none
      rw [empty, Nat.zero_add, Nat.div_eq_of_lt (by omega), Nat.zero_add]

/-- The bounds are multiples that come closer until they are next to each other. What is known of the
number of slices is the invariant: it is more at the lower bound, unless that did not move, and not more
at the upper one. -/
theorem calcSliceSizeLoop_spec (numSlices : ℕ) (fileInfo : List ℕ) {sizeMultiple : ℕ}
    (positive : 0 < sizeMultiple) (rounds a b : ℕ) (some : 1 ≤ a) (ordered : a ≤ b)
    (enough : b - a < rounds) :
    ∃ c d, calcSliceSizeLoop numSlices fileInfo sizeMultiple rounds (a * sizeMultiple)
        (b * sizeMultiple) = .some (c * sizeMultiple, d * sizeMultiple) ∧
      a ≤ c ∧ c ≤ d ∧ d ≤ b ∧ d ≤ c + 1 ∧
      (d = b ∨ calcNumSlicesForFiles fileInfo (d * sizeMultiple) ≤ numSlices) ∧
      (c = a ∨ numSlices < calcNumSlicesForFiles fileInfo (c * sizeMultiple)) := by
  induction rounds generalizing a b with
  | zero => omega
  | succ rounds ih =>
    have next : a * sizeMultiple + sizeMultiple = (a + 1) * sizeMultiple :=
      (Nat.succ_mul a sizeMultiple).symm
    have middle : (b * sizeMultiple + a * sizeMultiple) / (sizeMultiple * 2) = (a + b) / 2 := by
      rw [← Nat.add_mul, Nat.mul_comm, Nat.add_comm b, Nat.mul_div_mul_left _ _ positive]
    rw [calcSliceSizeLoop, next, middle]
    by_cases apart : a + 1 < b
    · rw [if_pos (Nat.mul_lt_mul_of_pos_right apart positive)]
      by_cases fits : numSlices ≥ calcNumSlicesForFiles fileInfo ((a + b) / 2 * sizeMultiple)
      · rw [if_pos fits]
        obtain ⟨c, d, found, low, between, high, close, upper, lower⟩ :=
          ih a ((a + b) / 2) some (by omega) (by omega)
        refine ⟨c, d, found, low, between, by omega, close, ?_, lower⟩
        obtain rfl | less := upper
        · exact .inr fits
        · exact .inr less
      · rw [if_neg fits]
        obtain ⟨c, d, found, low, between, high, close, upper, lower⟩ :=
          ih ((a + b) / 2) b (by omega) (by omega) (by omega)
        refine ⟨c, d, found, by omega, between, high, close, upper, ?_⟩
        obtain rfl | more := lower
        · exact .inr (not_le.mp fits)
        · exact .inr more
    · rw [if_neg (not_lt.mpr (Nat.mul_le_mul_right _ (not_lt.mp apart)))]
      exact ⟨a, b, rfl, le_refl a, ordered, le_refl b, by omega, .inl rfl, .inl rfl⟩

theorem le_largest (fileInfo : List ℕ) (start : ℕ) :
    start ≤ fileInfo.foldl max start ∧ ∀ size ∈ fileInfo, size ≤ fileInfo.foldl max start := by
  induction fileInfo generalizing start with
  | nil => exact ⟨le_refl start, fun size member => nomatch member⟩
  | cons first rest ih =>
    obtain ⟨more, others⟩ := ih (max start first)
    rw [List.foldl_cons]
    exact ⟨(le_max_left _ _).trans more, List.forall_mem_cons.mpr ⟨(le_max_right _ _).trans more, others⟩⟩

/-- With data, the search ends with sizes that are the same or next to each other. -/
theorem calcSliceSizeForFiles_multiples (numSlices : ℕ) {fileInfo : List ℕ} {sizeMultiple : ℕ}
    (positive : 0 < sizeMultiple) (data : ∃ size ∈ fileInfo, size ≠ 0) :
    ∃ c d, calcSliceSizeForFiles numSlices fileInfo sizeMultiple =
        some (c * sizeMultiple, d * sizeMultiple) ∧
      1 ≤ c ∧ c ≤ d ∧ d ≤ c + 1 ∧
      ((fileInfo.filter (· ≠ 0)).length ≤ numSlices →
        calcNumSlicesForFiles fileInfo (d * sizeMultiple) ≤ numSlices) ∧
      (c = 1 ∨ numSlices < calcNumSlicesForFiles fileInfo (c * sizeMultiple)) := by
  obtain ⟨size, member, some⟩ := data
  have largest := (le_largest fileInfo 0).2
  have above := largest size member
  generalize count_eq : (fileInfo.foldl max 0 + sizeMultiple - 1) / sizeMultiple = count
  have covers := @Nat.lt_div_mul_add (fileInfo.foldl max 0 + sizeMultiple - 1) sizeMultiple positive
  have atLeast : 1 ≤ count := by
    rw [← count_eq]
    exact Nat.div_pos (by omega) positive
  rw [count_eq] at covers
  have wide : count ≤ count * sizeMultiple := Nat.le_mul_of_pos_right count positive
  obtain ⟨c, d, found, low, between, -, close, upper, lower⟩ :=
    calcSliceSizeLoop_spec numSlices fileInfo positive (count * sizeMultiple + 1) 1 count (le_refl 1)
      atLeast (by omega)
  rw [Nat.one_mul] at found
  refine ⟨c, d, ?_, low, between, close, fun enough => ?_, lower⟩
  · rw [calcSliceSizeForFiles, largestSize, count_eq, found]
  · obtain rfl | fits := upper
    · rw [slices_largest fileInfo (by omega) fun other member => by
        have below := largest other member
        omega]
      exact enough
    · exact fits

/-! ## The constructor -/

/-- What a size was given in. All units but a count stand for a size. -/
inductive SliceUnit
  | count
  | bytes
  | power
  | log
  | ilog
  | largest_files
  | smallest_files
deriving DecidableEq

/-- A size, or a number of slices that is negative, as `calcNumInputSlices` gives it. -/
structure SliceSpec where
  value : ℤ
  unit : SliceUnit

/-- A size that is a number without a unit. -/
def SliceSpec.ofNumber (value : ℤ) : SliceSpec := ⟨value, if value < 0 then .count else .bytes⟩

/-- A limit that is a number without a unit: zero is a count here. -/
def SliceSpec.ofLimit (value : ℤ) : SliceSpec := ⟨value, if value ≤ 0 then .count else .bytes⟩

inductive SliceSizeError
  | tooManyFiles (dataFiles : ℕ)
  | sizeMultiple (sizeMultiple : ℕ)
  | notMultiple (sliceSize : ℤ) (sizeMultiple : ℕ)
  | belowMinimum
  | minNotMultiple (minSliceSize : ℤ) (sizeMultiple : ℕ)
  | aboveMaximum
  | maxNotMultiple (maxSliceSize : ℤ) (sizeMultiple : ℕ)
  | countRange (min max : ℤ)
  | sizeRange (min max : ℤ)
  | moreFilesThanSlices (dataFiles : ℕ) (numSlices : ℤ)
  | noInput
  | noSize (numSlices : ℤ) (lower lowerSlices upper upperSlices : ℕ)
  | constraints
  | invalidSize
  | tooManySlices (inputSlices : ℕ)
  | limits
  | endless
deriving DecidableEq

structure SliceSizeOpts where
  fileInfo : List ℕ
  sliceSizeMultiple : ℕ
  sliceSize : SliceSpec
  minSliceSize : Option SliceSpec
  maxSliceSize : Option SliceSpec

namespace SliceSizeOpts

variable (o : SliceSizeOpts)

def dataFiles : ℕ := (o.fileInfo.filter (· ≠ 0)).length

/-- Whether the size is moved to the minimum. -/
def checkMin : Except SliceSizeError Bool :=
  match o.minSliceSize with
  | none => .ok false
  | some min =>
    let below := (decide (o.sliceSize.value < 0) = decide (min.value ≤ 0)) ∧
      |o.sliceSize.value| < |min.value|
    if below ∧ o.sliceSize.unit = min.unit then .error .belowMinimum
    else if min.value > 0 ∧ min.value % o.sliceSizeMultiple ≠ 0 then
      .error (.minNotMultiple min.value o.sliceSizeMultiple)
    else .ok below

/-- Whether the size is moved to the maximum. -/
def checkMax : Except SliceSizeError Bool :=
  match o.maxSliceSize with
  | none => .ok false
  | some max =>
    let above := (decide (o.sliceSize.value < 0) = decide (max.value ≤ 0)) ∧
      |o.sliceSize.value| > |max.value|
    if above ∧ o.sliceSize.unit = max.unit then .error .aboveMaximum
    else if max.value > 0 ∧ max.value % o.sliceSizeMultiple ≠ 0 then
      .error (.maxNotMultiple max.value o.sliceSizeMultiple)
    else .ok above

def checkRange : Except SliceSizeError Unit :=
  match o.minSliceSize, o.maxSliceSize with
  | some min, some max =>
    if (decide (min.value ≤ 0) = decide (max.value ≤ 0)) ∧ |max.value| < |min.value| then
      if min.value ≤ 0 then .error (.countRange (-min.value) (-max.value))
      else .error (.sizeRange min.value max.value)
    else .ok ()
  | _, _ => .ok ()

/-- The size or count that is left, with its limits. -/
structure Wanted where
  sliceSize : ℤ
  minSliceSize : ℤ
  maxSliceSize : ℤ

/-- The minimum and the size; without a minimum the size is one. -/
def adjustMin (adjSSmin : Bool) : ℤ × ℤ :=
  match o.minSliceSize with
  | none => (o.sliceSize.value, o.sliceSize.value)
  | some min => (min.value, if adjSSmin then min.value else o.sliceSize.value)

def adjustMax (adjSSmax : Bool) (sliceSize : ℤ) : ℤ × ℤ :=
  match o.maxSliceSize with
  | none => (sliceSize, sliceSize)
  | some max => (max.value, if adjSSmax then max.value else sliceSize)

def checkSize : Except SliceSizeError Unit :=
  if o.dataFiles > 32768 then .error (.tooManyFiles o.dataFiles)
  else if o.sliceSizeMultiple % 4 ≠ 0 ∨ o.sliceSizeMultiple = 0 then
    .error (.sizeMultiple o.sliceSizeMultiple)
  else if o.sliceSize.value ≥ 0 ∧ o.sliceSize.value % o.sliceSizeMultiple ≠ 0 then
    .error (.notMultiple o.sliceSize.value o.sliceSizeMultiple)
  else .ok ()

def wanted : Except SliceSizeError Wanted := do
  o.checkSize
  let adjSSmin ← o.checkMin
  let adjSSmax ← o.checkMax
  o.checkRange
  let (minSliceSize, sliceSize) := o.adjustMin adjSSmin
  let (maxSliceSize, sliceSize) := o.adjustMax adjSSmax sliceSize
  return ⟨sliceSize, minSliceSize, maxSliceSize⟩

def bounds (numSlices : ℕ) : Except SliceSizeError (ℕ × ℕ) :=
  match calcSliceSizeForFiles numSlices o.fileInfo o.sliceSizeMultiple with
  | some bounds => .ok bounds
  | none => .error .endless

/-- Whether a size is within the limits, where a limit is a number of slices or a size. -/
def Wanted.allows (wanted : Wanted) (size slices : ℕ) : Bool :=
  ((wanted.minSliceSize ≤ 0 ∧ slices ≥ -wanted.minSliceSize) ∨
      (wanted.minSliceSize > 0 ∧ size ≥ wanted.minSliceSize)) ∧
    ((wanted.maxSliceSize ≤ 0 ∧ slices ≤ -wanted.maxSliceSize) ∨
      (wanted.maxSliceSize > 0 ∧ size ≤ wanted.maxSliceSize))

/-- Limits that are sizes clip a size. -/
def Wanted.clip (wanted : Wanted) (size : ℤ) : ℤ :=
  let size := if wanted.minSliceSize > 0 ∧ size < wanted.minSliceSize then wanted.minSliceSize else size
  if wanted.maxSliceSize > 0 ∧ size > wanted.maxSliceSize then wanted.maxSliceSize else size

/-- One of two sizes for a number of slices, or one that is within the limits. -/
def pickBound (wanted : Wanted) (numSlices : ℕ) (bounds : ℕ × ℕ) : Except SliceSizeError ℕ :=
  let lboundSlices := calcNumSlicesForFiles o.fileInfo bounds.1
  let uboundSlices := calcNumSlicesForFiles o.fileInfo bounds.2
  if lboundSlices = numSlices then .ok bounds.1
  else if uboundSlices = numSlices then .ok bounds.2
  else if wanted.allows bounds.1 lboundSlices then .ok bounds.1
  else if wanted.allows bounds.2 uboundSlices then .ok bounds.2
  else .error (.noSize numSlices bounds.1 lboundSlices bounds.2 uboundSlices)

/-- A size for a number of slices. -/
def sizeForCount (wanted : Wanted) : Except SliceSizeError ℤ :=
  let numSlices := (-wanted.sliceSize).toNat
  if numSlices < o.dataFiles then .error (.moreFilesThanSlices o.dataFiles numSlices)
  else if o.dataFiles = 0 then .error .noInput
  else do
    let bounds ← o.bounds numSlices
    let size ← o.pickBound wanted numSlices bounds
    return wanted.clip size

/-- The number of slices of a size. With a size of zero, data gives an infinite number, and an empty
file gives no number at all: comparisons with that fail. -/
def slicesOf (size : ℕ) : Option ℕ∞ :=
  if size = 0 then
    if o.fileInfo = [] then some 0 else if 0 ∈ o.fileInfo then none else some ⊤
  else some (calcNumSlicesForFiles o.fileInfo size)

/-- A smaller size for at least so many slices. -/
def scaleDown (minSliceSize : ℤ) (size : ℕ) : Except SliceSizeError ℕ :=
  let minSlices : ℕ := (-minSliceSize).toNat
  if minSliceSize ≤ 0 ∧ (o.slicesOf size).any (· < (minSlices : ℕ∞)) then do
    let bounds ← o.bounds minSlices
    return if (o.slicesOf bounds.1).any (· ≥ (minSlices : ℕ∞)) then bounds.1 else bounds.2
  else .ok size

/-- A larger size for at most so many slices. -/
def scaleUp (maxSliceSize : ℤ) (size : ℕ) : Except SliceSizeError ℕ :=
  let maxSlices : ℕ := (-maxSliceSize).toNat
  if maxSliceSize ≤ 0 ∧ (o.slicesOf size).any (· > (maxSlices : ℕ∞)) then do
    let bounds ← o.bounds maxSlices
    return if (o.slicesOf bounds.2).any (· ≤ (maxSlices : ℕ∞)) then bounds.2 else bounds.1
  else .ok size

/-- A given size is moved so that the number of slices is within limits that are numbers. -/
def sizeForLimits (wanted : Wanted) : Except SliceSizeError ℤ := do
  let size ← o.scaleDown wanted.minSliceSize wanted.sliceSize.toNat
  let size ← o.scaleUp wanted.maxSliceSize size
  if wanted.minSliceSize ≤ 0 ∧
      (o.slicesOf size).any (· < (((-wanted.minSliceSize).toNat : ℕ) : ℕ∞)) then .error .constraints
  else return size

/-- A size above a minimum is reduced while the number of slices is kept. -/
def reduceSize (wanted : Wanted) (size : ℤ) (inputSlices : ℕ) : Except SliceSizeError ℤ :=
  if wanted.minSliceSize > 0 ∧ wanted.minSliceSize < size then do
    let bounds ← o.bounds inputSlices
    if calcNumSlicesForFiles o.fileInfo bounds.1 = inputSlices then
      .ok (max bounds.1 wanted.minSliceSize)
    else if o.slicesOf bounds.2 = some inputSlices then .ok (max bounds.2 wanted.minSliceSize)
    else .ok size
  else .ok size

/-- The size before it is reduced. -/
def firstSize (wanted : Wanted) : Except SliceSizeError ℤ :=
  if wanted.sliceSize < 0 then o.sizeForCount wanted else o.sizeForLimits wanted

/-- The checks of the final size and number of slices. -/
def Wanted.check (wanted : Wanted) (size : ℤ) (inputSlices : ℕ) : Except SliceSizeError Unit :=
  if inputSlices > 32768 then .error (.tooManySlices inputSlices)
  else if (wanted.minSliceSize ≤ 0 ∧ inputSlices < -wanted.minSliceSize) ∨
      (wanted.minSliceSize > 0 ∧ size < wanted.minSliceSize) ∨
      (wanted.maxSliceSize ≤ 0 ∧ inputSlices > -wanted.maxSliceSize) ∨
      (wanted.maxSliceSize > 0 ∧ size > wanted.maxSliceSize) then .error .limits
  else .ok ()

/-- The final size and number of slices. -/
def chosen : Except SliceSizeError (ℤ × ℕ) := do
  let wanted ← o.wanted
  let size ← o.firstSize wanted
  if size < 1 then .error .invalidSize
  else
    let inputSlices := calcNumSlicesForFiles o.fileInfo size.toNat
    let size ← o.reduceSize wanted size inputSlices
    wanted.check size inputSlices
    return (size, inputSlices)

end SliceSizeOpts

end Par3
