import Mathlib.Data.List.Pairwise
import Par3.Par2Proc

/-!
# The split of a slice among the backends

The ranges of the backends are joined to that of the first one, in any order in which they touch. The
joined ranges are always an interval, so that what is not joined and belongs to the slice touches it.
-/
namespace Par3

namespace BackendRange

/-- `currentOffset + currentSliceSize` -/
def currentEnd (range : BackendRange) : ℕ := (range.currentOffset + range.currentSliceSize) % 2 ^ 64

/-- A range in memory that is not empty. -/
def Nonempty (range : BackendRange) : Prop :=
  0 < range.currentSliceSize ∧ range.currentOffset + range.currentSliceSize < 2 ^ 64

def Holds (range : BackendRange) (byte : ℕ) : Prop :=
  range.currentOffset ≤ byte ∧ byte < range.currentOffset + range.currentSliceSize

theorem currentEnd_eq {range : BackendRange} (nonempty : range.Nonempty) :
    range.currentEnd = range.currentOffset + range.currentSliceSize := Nat.mod_eq_of_lt nonempty.2

end BackendRange

/-! ## The loops -/

/-- The ranges that are joined. -/
structure JoinedRanges where
  start : ℕ
  end_ : ℕ
  hasOverlap : Bool

/-- A range that touches what is joined; one that does not is skipped. -/
def JoinedRanges.join (joined : JoinedRanges) (backend : BackendRange) : Option JoinedRanges :=
  let currentEnd := backend.currentEnd
  if backend.currentOffset ≤ joined.start ∧ currentEnd ≥ joined.start then
    some {
      start := backend.currentOffset
      end_ := if currentEnd > joined.end_ then currentEnd else joined.end_
      hasOverlap := joined.hasOverlap || decide (currentEnd > joined.start) }
  else if currentEnd ≥ joined.end_ ∧ backend.currentOffset ≤ joined.end_ then
    some {
      start := if backend.currentOffset < joined.start then backend.currentOffset else joined.start
      end_ := currentEnd
      hasOverlap := joined.hasOverlap || decide (backend.currentOffset < joined.end_) }
  else if backend.currentOffset > joined.start ∧ currentEnd < joined.end_ then
    some { joined with hasOverlap := true }
  else none

/-- Alignment to words of 16 bits, but for the end of the slice. -/
def BackendRange.aligned (currentSliceSize : ℕ) (backend : BackendRange) : Bool :=
  backend.currentOffset % 2 = 0 ∧
    (backend.currentSliceSize % 2 = 0 ∨ backend.currentEnd = currentSliceSize)

/-- One pass over the other backends, each with its entry of `beChecked`, and whether a range was
joined. There is no result where the check fails. -/
def allocationPass (currentSliceSize : ℕ) : List (BackendRange × Bool) → JoinedRanges →
    Option (List (BackendRange × Bool) × JoinedRanges × Bool)
  | [], joined => some ([], joined, false)
  | (backend, true) :: others, joined =>
    (allocationPass currentSliceSize others joined).map fun (others, joined, beFound) =>
      ((backend, true) :: others, joined, beFound)
  | (backend, false) :: others, joined =>
    match joined.join backend with
    | none =>
      (allocationPass currentSliceSize others joined).map fun (others, joined, beFound) =>
        ((backend, false) :: others, joined, beFound)
    | some joined =>
      if backend.aligned currentSliceSize then
        (allocationPass currentSliceSize others joined).map fun (others, joined, _) =>
          ((backend, true) :: others, joined, true)
      else none

/-- `beUnchecked` -/
def beUnchecked (others : List (BackendRange × Bool)) : ℕ := others.countP fun other => !other.2

/-- The loop while backends are not checked, in at most so many passes. -/
def allocationLoop (currentSliceSize : ℕ) : ℕ → List (BackendRange × Bool) → JoinedRanges → Option Bool
  | 0, _, _ => none
  | passes + 1, others, joined =>
    if beUnchecked others = 0 then
      some (!joined.hasOverlap && decide (joined.start = 0 ∧ joined.end_ = currentSliceSize))
    else
      match allocationPass currentSliceSize others joined with
      | none => some false
      | some (others, joined, beFound) =>
        if beFound then allocationLoop currentSliceSize passes others joined else some false

/-- `PAR2Proc::checkBackendAllocation`, for the first backend and the others -/
def checkBackendAllocation (currentSliceSize passes : ℕ) (first : BackendRange) (others : List BackendRange) :
    Option Bool :=
  allocationLoop currentSliceSize passes (others.map (·, false))
    ⟨first.currentOffset, first.currentEnd, false⟩

/-! ## What is joined -/

/-- Ranges without a byte in common. -/
def BackendRange.Apart (left right : BackendRange) : Prop := ∀ byte, ¬ (left.Holds byte ∧ right.Holds byte)

theorem BackendRange.Apart.symm {left right : BackendRange} (apart : left.Apart right) : right.Apart left :=
  fun byte both => apart byte both.symm

instance : Std.Symm BackendRange.Apart := ⟨fun _ _ => BackendRange.Apart.symm⟩

/-- The joined ranges are an interval, and overlaps among them are known. -/
structure JoinedRanges.Sound (joined : JoinedRanges) (ranges : List BackendRange) : Prop where
  some : joined.start < joined.end_
  holds : ∀ byte, (∃ range ∈ ranges, range.Holds byte) ↔ joined.start ≤ byte ∧ byte < joined.end_
  overlap : joined.hasOverlap = false ↔ ranges.Pairwise BackendRange.Apart

namespace JoinedRanges

variable {joined after : JoinedRanges} {backend : BackendRange} {ranges : List BackendRange}

/-- In all cases, the interval grows by a range that touches it, and an overlap with it is noted. -/
theorem join_some (interval : joined.start < joined.end_) (nonempty : backend.Nonempty)
    (joins : joined.join backend = some after) :
    backend.currentOffset ≤ joined.end_ ∧ joined.start ≤ backend.currentOffset + backend.currentSliceSize ∧
      after.start = min backend.currentOffset joined.start ∧
      after.end_ = max (backend.currentOffset + backend.currentSliceSize) joined.end_ ∧
      (after.hasOverlap = false ↔ joined.hasOverlap = false ∧
        ¬ (backend.currentOffset < joined.end_ ∧
          joined.start < backend.currentOffset + backend.currentSliceSize)) := by
  have pos := nonempty.1
  rw [join, BackendRange.currentEnd_eq nonempty] at joins
  split at joins
  · next left =>
    obtain rfl := Option.some.inj joins
    refine ⟨by omega, left.2, (min_eq_left left.1).symm, ?_, ?_⟩
    · dsimp only
      split <;> omega
    · rw [Bool.or_eq_false_iff, decide_eq_false_iff_not]
      refine and_congr_right fun _ => ?_
      omega
  · split at joins
    · next _ right =>
      obtain rfl := Option.some.inj joins
      refine ⟨right.2, by omega, ?_, (max_eq_left right.1).symm, ?_⟩
      · dsimp only
        split <;> omega
      · rw [Bool.or_eq_false_iff, decide_eq_false_iff_not]
        refine and_congr_right fun _ => ?_
        omega
    · split at joins
      · next _ _ inside =>
        obtain rfl := Option.some.inj joins
        refine ⟨by omega, by omega, (min_eq_right inside.1.le).symm, (max_eq_right inside.2.le).symm, ?_⟩
        constructor
        · intro none
          cases none
        · intro apart
          omega
      · cases joins

theorem join_sound (sound : joined.Sound ranges) (nonempty : backend.Nonempty)
    (joins : joined.join backend = some after) : after.Sound (backend :: ranges) := by
  obtain ⟨low, high, start, end_, overlap⟩ := join_some sound.some nonempty joins
  have interval := sound.some
  have pos := nonempty.1
  refine ⟨by omega, fun byte => ?_, ?_⟩
  · simp only [List.mem_cons, exists_eq_or_imp]
    rw [sound.holds, BackendRange.Holds, start, end_]
    omega
  · rw [overlap, sound.overlap, List.pairwise_cons, and_comm]
    refine and_congr_left fun _ => ?_
    constructor
    · intro apart range member byte both
      have inside := (sound.holds byte).mp ⟨range, member, both.2⟩
      have own := both.1
      rw [BackendRange.Holds] at own
      omega
    · -- the first common byte of both intervals is in a range
      intro apart both
      obtain ⟨range, member, holds⟩ := (sound.holds (max backend.currentOffset joined.start)).mpr (by omega)
      refine apart range member _ ⟨?_, holds⟩
      rw [BackendRange.Holds]
      omega

/-- A range that is skipped does not touch what is joined. -/
theorem join_none (nonempty : backend.Nonempty) (skipped : joined.join backend = none) :
    backend.currentOffset + backend.currentSliceSize < joined.start ∨ joined.end_ < backend.currentOffset := by
  rw [join, BackendRange.currentEnd_eq nonempty] at skipped
  split at skipped
  · cases skipped
  · split at skipped
    · cases skipped
    · split at skipped
      · cases skipped
      · omega

end JoinedRanges

/-! ## Passes -/

/-- The ranges that are checked, or not. -/
def rangesWith (checked : Bool) (others : List (BackendRange × Bool)) : List BackendRange :=
  (others.filter fun other => other.2 = checked).map Prod.fst

section
variable (backend : BackendRange) (others : List (BackendRange × Bool))

theorem rangesWith_same (checked : Bool) :
    rangesWith checked ((backend, checked) :: others) = backend :: rangesWith checked others := by
  simp [rangesWith]

theorem rangesWith_checked : rangesWith false ((backend, true) :: others) = rangesWith false others := rfl

theorem rangesWith_skipped : rangesWith true ((backend, false) :: others) = rangesWith true others := rfl

theorem beUnchecked_checked : beUnchecked ((backend, true) :: others) = beUnchecked others := by
  simp [beUnchecked]

theorem beUnchecked_skipped : beUnchecked ((backend, false) :: others) = beUnchecked others + 1 := by
  simp [beUnchecked]

end

theorem JoinedRanges.Sound.perm {joined : JoinedRanges} {left right : List BackendRange}
    (sound : joined.Sound left) (perm : left.Perm right) : joined.Sound right where
  some := sound.some
  holds byte := by
    rw [← sound.holds]
    simp only [perm.mem_iff]
  overlap := by rw [sound.overlap, perm.pairwise_iff BackendRange.Apart.symm]

/-- A pass keeps the backends and joins ranges that are aligned. When it finds none, all that are not
checked were skipped. -/
structure PassSpec (currentSliceSize : ℕ) (before : List BackendRange) (others : List (BackendRange × Bool))
    (joined : JoinedRanges) (after : List (BackendRange × Bool)) (union : JoinedRanges) (beFound : Bool) :
    Prop where
  same : after.map Prod.fst = others.map Prod.fst
  sound : union.Sound (rangesWith true after ++ before)
  aligned : ∀ range ∈ rangesWith true after, range ∈ rangesWith true others ∨ range.aligned currentSliceSize
  progress : beFound = true → beUnchecked after < beUnchecked others
  still : beFound = false →
    after = others ∧ union = joined ∧ ∀ range ∈ rangesWith false others, joined.join range = none

theorem allocationPass_some {currentSliceSize : ℕ} {others after : List (BackendRange × Bool)}
    {joined union : JoinedRanges} {beFound : Bool} {before : List BackendRange}
    (nonempty : ∀ other ∈ others, other.1.Nonempty) (sound : joined.Sound (rangesWith true others ++ before))
    (passed : allocationPass currentSliceSize others joined = some (after, union, beFound)) :
    PassSpec currentSliceSize before others joined after union beFound := by
  induction others generalizing joined before after union beFound with
  | nil =>
    obtain ⟨rfl, rfl, rfl⟩ : [] = after ∧ joined = union ∧ false = beFound := by
      simpa [allocationPass] using passed
    exact ⟨rfl, sound, fun range member => .inl member, fun found => (nomatch found),
      fun _ => ⟨rfl, rfl, fun range member => (nomatch member)⟩⟩
  | cons other others ih =>
    obtain ⟨backend, checked⟩ := other
    obtain ⟨own, rest⟩ := List.forall_mem_cons.mp nonempty
    cases checked with
    | true =>
      rw [allocationPass, Option.map_eq_some_iff] at passed
      obtain ⟨⟨later, _, _⟩, returned, result⟩ := passed
      obtain ⟨rfl, rfl, rfl⟩ : _ ∧ _ ∧ _ := by simpa using result
      rw [rangesWith_same] at sound
      obtain ⟨same, later_sound, aligned, progress, still⟩ :=
        ih rest (sound.perm List.perm_middle.symm) returned
      refine ⟨by rw [List.map_cons, List.map_cons, same], ?_, ?_, ?_, ?_⟩
      · rw [rangesWith_same]
        exact later_sound.perm List.perm_middle
      · rw [rangesWith_same, rangesWith_same]
        intro range member
        obtain rfl | member := List.mem_cons.mp member
        · exact .inl List.mem_cons_self
        · exact (aligned range member).imp_left (List.mem_cons_of_mem _)
      · rw [beUnchecked_checked, beUnchecked_checked]
        exact progress
      · intro none
        obtain ⟨rfl, rfl, skipped⟩ := still none
        exact ⟨rfl, rfl, skipped⟩
    | false =>
      rw [rangesWith_skipped] at sound
      rw [allocationPass] at passed
      split at passed
      · next skips =>
        rw [Option.map_eq_some_iff] at passed
        obtain ⟨⟨later, _, _⟩, returned, result⟩ := passed
        obtain ⟨rfl, rfl, rfl⟩ : _ ∧ _ ∧ _ := by simpa using result
        obtain ⟨same, later_sound, aligned, progress, still⟩ := ih rest sound returned
        refine ⟨by rw [List.map_cons, List.map_cons, same], later_sound, aligned, ?_, ?_⟩
        · rw [beUnchecked_skipped, beUnchecked_skipped]
          exact fun found => Nat.succ_lt_succ (progress found)
        · intro none
          obtain ⟨rfl, rfl, skipped⟩ := still none
          rw [rangesWith_same]
          exact ⟨rfl, rfl, List.forall_mem_cons.mpr ⟨skips, skipped⟩⟩
      · next joins =>
        split at passed
        · next even =>
          rw [Option.map_eq_some_iff] at passed
          obtain ⟨⟨later, _, found⟩, returned, result⟩ := passed
          obtain ⟨rfl, rfl, rfl⟩ : _ ∧ _ ∧ _ := by simpa using result
          have joined_sound := (JoinedRanges.join_sound sound own joins).perm List.perm_middle.symm
          obtain ⟨same, later_sound, aligned, progress, still⟩ := ih rest joined_sound returned
          refine ⟨by rw [List.map_cons, List.map_cons, same], ?_, ?_, ?_, fun none => (nomatch none)⟩
          · rw [rangesWith_same]
            exact later_sound.perm List.perm_middle
          · rw [rangesWith_same]
            intro range member
            obtain rfl | member := List.mem_cons.mp member
            · exact .inr even
            · exact aligned range member
          · rw [beUnchecked_checked, beUnchecked_skipped]
            intro _
            cases found with
            | true => exact (progress rfl).trans (Nat.lt_succ_self _)
            | false =>
              obtain ⟨rfl, -, -⟩ := still rfl
              exact Nat.lt_succ_self _
        · cases passed

/-- A pass without a result has found a range that is not aligned. -/
theorem allocationPass_none {currentSliceSize : ℕ} {others : List (BackendRange × Bool)}
    {joined : JoinedRanges} (failed : allocationPass currentSliceSize others joined = none) :
    ∃ other ∈ others, other.1.aligned currentSliceSize = false := by
  induction others generalizing joined with
  | nil => cases failed
  | cons other others ih =>
    obtain ⟨backend, checked⟩ := other
    cases checked with
    | true =>
      rw [allocationPass, Option.map_eq_none_iff] at failed
      obtain ⟨range, member, odd⟩ := ih failed
      exact ⟨range, List.mem_cons_of_mem _ member, odd⟩
    | false =>
      rw [allocationPass] at failed
      split at failed
      · rw [Option.map_eq_none_iff] at failed
        obtain ⟨range, member, odd⟩ := ih failed
        exact ⟨range, List.mem_cons_of_mem _ member, odd⟩
      · split at failed
        · rw [Option.map_eq_none_iff] at failed
          obtain ⟨range, member, odd⟩ := ih failed
          exact ⟨range, List.mem_cons_of_mem _ member, odd⟩
        · next odd => exact ⟨_, List.mem_cons_self, Bool.eq_false_iff.mpr odd⟩

/-! ## What the check decides -/

/-- The ranges split the slice, at even positions. -/
structure Allocated (currentSliceSize : ℕ) (ranges : List BackendRange) : Prop where
  apart : ranges.Pairwise BackendRange.Apart
  covers : ∀ byte, (∃ range ∈ ranges, range.Holds byte) ↔ byte < currentSliceSize
  even : 1 < ranges.length → ∀ left ∈ ranges, ∀ right ∈ ranges,
    left.currentOffset + left.currentSliceSize = right.currentOffset → 2 ∣ right.currentOffset

section
variable {currentSliceSize : ℕ} {ranges : List BackendRange}

theorem Allocated.ends_at_start (allocated : Allocated currentSliceSize ranges) {left right : BackendRange}
    (leftMember : left ∈ ranges) (rightMember : right ∈ ranges) (nonempty : right.Nonempty) {byte : ℕ}
    (holds : left.Holds byte) (before : byte + 1 = right.currentOffset) :
    left.currentOffset + left.currentSliceSize = right.currentOffset := by
  have pos := nonempty.1
  rw [BackendRange.Holds] at holds
  have different : left ≠ right := by
    rintro rfl
    omega
  have apart := allocated.apart.forall leftMember rightMember different
    right.currentOffset
  rw [BackendRange.Holds, BackendRange.Holds] at apart
  omega

theorem Allocated.starts_at_end (allocated : Allocated currentSliceSize ranges) {left right : BackendRange}
    (leftMember : left ∈ ranges) (rightMember : right ∈ ranges) (nonempty : left.Nonempty)
    (holds : right.Holds (left.currentOffset + left.currentSliceSize)) :
    left.currentOffset + left.currentSliceSize = right.currentOffset := by
  have pos := nonempty.1
  rw [BackendRange.Holds] at holds
  have different : left ≠ right := by
    rintro rfl
    omega
  have apart := allocated.apart.forall leftMember rightMember different
    (left.currentOffset + left.currentSliceSize - 1)
  have common := allocated.apart.forall leftMember rightMember different
    (max left.currentOffset right.currentOffset)
  rw [BackendRange.Holds, BackendRange.Holds] at apart common
  omega

/-- A split at even positions has ranges that are aligned. -/
theorem Allocated.aligned (allocated : Allocated currentSliceSize ranges)
    (nonempty : ∀ range ∈ ranges, range.Nonempty) (several : 1 < ranges.length) :
    ∀ range ∈ ranges, range.aligned currentSliceSize := by
  intro range member
  have own := nonempty range member
  have pos := own.1
  have first := (allocated.covers range.currentOffset).mp
    ⟨range, member, by rw [BackendRange.Holds]; omega⟩
  have last := (allocated.covers (range.currentOffset + range.currentSliceSize - 1)).mp
    ⟨range, member, by rw [BackendRange.Holds]; omega⟩
  have offset : 2 ∣ range.currentOffset := by
    by_cases zero : range.currentOffset = 0
    · rw [zero]
      exact Nat.dvd_zero 2
    · obtain ⟨left, leftMember, holds⟩ := (allocated.covers (range.currentOffset - 1)).mpr (by omega)
      exact allocated.even several left leftMember range member
        (allocated.ends_at_start leftMember member own holds (by omega))
  rw [BackendRange.aligned, BackendRange.currentEnd_eq own, decide_eq_true_eq]
  refine ⟨Nat.mod_eq_zero_of_dvd offset, ?_⟩
  by_cases end_ : range.currentOffset + range.currentSliceSize = currentSliceSize
  · exact .inr end_
  · obtain ⟨right, rightMember, holds⟩ :=
      (allocated.covers (range.currentOffset + range.currentSliceSize)).mpr (by omega)
    have boundary := allocated.starts_at_end member rightMember own holds
    have even := allocated.even several range member right rightMember boundary
    omega

/-- Once all ranges are joined, the interval and the overlaps decide. -/
theorem allocated_of_joined {joined : JoinedRanges} {first : BackendRange} {others : List BackendRange}
    (nonempty : ∀ range ∈ first :: others, range.Nonempty)
    (sound : joined.Sound (first :: others)) (aligned : ∀ range ∈ others, range.aligned currentSliceSize) :
    (joined.hasOverlap = false ∧ joined.start = 0 ∧ joined.end_ = currentSliceSize) ↔
      Allocated currentSliceSize (first :: others) := by
  have interval := sound.some
  constructor
  · rintro ⟨none, start, end_⟩
    have covers : ∀ byte, (∃ range ∈ first :: others, range.Holds byte) ↔ byte < currentSliceSize := by
      intro byte
      rw [sound.holds, start, end_]
      omega
    refine ⟨sound.overlap.mp none, covers, fun _ left leftMember right rightMember boundary => ?_⟩
    have leftSize := nonempty left leftMember
    have rightSize := (nonempty right rightMember).1
    have inside := (covers right.currentOffset).mp ⟨right, rightMember, by rw [BackendRange.Holds]; omega⟩
    obtain rfl | later := List.mem_cons.mp rightMember
    · -- the first range is not checked, but the one before it is
      obtain rfl | before := List.mem_cons.mp leftMember
      · omega
      · have even := aligned left before
        rw [BackendRange.aligned, BackendRange.currentEnd_eq leftSize, decide_eq_true_eq] at even
        omega
    · have even := aligned right later
      rw [BackendRange.aligned, decide_eq_true_eq] at even
      exact Nat.dvd_of_mod_eq_zero even.1
  · intro allocated
    have same : ∀ byte, joined.start ≤ byte ∧ byte < joined.end_ ↔ byte < currentSliceSize := fun byte => by
      rw [← sound.holds, allocated.covers]
    have atStart := (same joined.start).mp ⟨le_refl _, interval⟩
    have atEnd := (same (joined.end_ - 1)).mp (by omega)
    have atZero := (same 0).mpr (by omega)
    have atLast := (same (currentSliceSize - 1)).mpr (by omega)
    exact ⟨sound.overlap.mpr allocated.apart, by omega, by omega⟩

theorem mem_rangesWith {others : List (BackendRange × Bool)} {range : BackendRange}
    (member : range ∈ others.map Prod.fst) : range ∈ rangesWith true others ∨ range ∈ rangesWith false others := by
  obtain ⟨⟨_, checked⟩, inside, rfl⟩ := List.mem_map.mp member
  cases checked with
  | true => exact .inl (List.mem_map.mpr ⟨_, List.mem_filter.mpr ⟨inside, rfl⟩, rfl⟩)
  | false => exact .inr (List.mem_map.mpr ⟨_, List.mem_filter.mpr ⟨inside, rfl⟩, rfl⟩)

/-- A pass that joins nothing leaves a gap in the slice. -/
theorem not_allocated_of_skipped {joined : JoinedRanges} {first : BackendRange}
    {others : List (BackendRange × Bool)} (nonempty : ∀ other ∈ others, other.1.Nonempty)
    (sound : joined.Sound (rangesWith true others ++ [first])) (more : beUnchecked others ≠ 0)
    (skipped : ∀ range ∈ rangesWith false others, joined.join range = none) :
    ¬ Allocated currentSliceSize (first :: others.map Prod.fst) := by
  intro allocated
  have interval := sound.some
  have touches : ∀ range ∈ rangesWith false others,
      range.currentOffset + range.currentSliceSize < joined.start ∨ joined.end_ < range.currentOffset := by
    intro range member
    obtain ⟨other, inside, rfl⟩ := List.mem_map.mp member
    exact JoinedRanges.join_none (nonempty other (List.mem_of_mem_filter inside)) (skipped _ member)
  -- a byte of the slice outside the interval is in a range that was skipped
  have outside : ∀ byte < currentSliceSize, ¬ (joined.start ≤ byte ∧ byte < joined.end_) →
      ∃ range ∈ rangesWith false others, range.Holds byte := by
    intro byte below out
    obtain ⟨range, member, holds⟩ := (allocated.covers byte).mpr below
    have unjoined : range ∉ rangesWith true others ++ [first] := fun inside =>
      out ((sound.holds byte).mp ⟨range, inside, holds⟩)
    rw [List.mem_append, List.mem_singleton, not_or] at unjoined
    obtain rfl | member := List.mem_cons.mp member
    · exact absurd rfl unjoined.2
    · exact ⟨range, (mem_rangesWith member).resolve_left unjoined.1, holds⟩
  obtain ⟨other, inside, unchecked⟩ := List.countP_pos_iff.mp (Nat.pos_of_ne_zero more)
  have member : other.1 ∈ rangesWith false others :=
    List.mem_map.mpr ⟨other, List.mem_filter.mpr ⟨inside, by simpa using unchecked⟩, rfl⟩
  have pos := (nonempty other inside).1
  have own := (allocated.covers other.1.currentOffset).mp
    ⟨other.1, List.mem_cons_of_mem _ (List.mem_map_of_mem inside), by rw [BackendRange.Holds]; omega⟩
  obtain left | right := touches other.1 member
  · have start := (allocated.covers joined.start).mp (by
      obtain ⟨range, joinedMember, holds⟩ := (sound.holds joined.start).mpr ⟨le_refl _, interval⟩
      refine ⟨range, ?_, holds⟩
      obtain inChecked | inFirst := List.mem_append.mp joinedMember
      · obtain ⟨checked, inOthers, rfl⟩ := List.mem_map.mp inChecked
        exact List.mem_cons_of_mem _ (List.mem_map_of_mem (List.mem_of_mem_filter inOthers))
      · rw [List.mem_singleton.mp inFirst]
        exact List.mem_cons_self)
    obtain ⟨range, skippedMember, holds⟩ := outside (joined.start - 1) (by omega) (by omega)
    have apart := touches range skippedMember
    rw [BackendRange.Holds] at holds
    omega
  · obtain ⟨range, skippedMember, holds⟩ := outside joined.end_ (by omega) (by omega)
    have apart := touches range skippedMember
    rw [BackendRange.Holds] at holds
    omega

theorem allocationLoop_iff {first : BackendRange} (passes : ℕ) (others : List (BackendRange × Bool))
    (joined : JoinedRanges) (nonempty : ∀ range ∈ first :: others.map Prod.fst, range.Nonempty)
    (sound : joined.Sound (rangesWith true others ++ [first]))
    (aligned : ∀ range ∈ rangesWith true others, range.aligned currentSliceSize)
    (enough : beUnchecked others < passes) :
    ∃ result, allocationLoop currentSliceSize passes others joined = some result ∧
      (result = true ↔ Allocated currentSliceSize (first :: others.map Prod.fst)) := by
  induction passes generalizing others joined with
  | zero => omega
  | succ passes ih =>
    have others_nonempty : ∀ other ∈ others, other.1.Nonempty := fun other member =>
      nonempty _ (List.mem_cons_of_mem _ (List.mem_map_of_mem member))
    rw [allocationLoop]
    by_cases done : beUnchecked others = 0
    · have all : rangesWith true others = others.map Prod.fst := by
        rw [rangesWith, List.filter_eq_self.mpr]
        intro other member
        simpa using List.countP_eq_zero.mp done other member
      rw [all] at sound aligned
      rw [if_pos done]
      refine ⟨_, rfl, ?_⟩
      rw [Bool.and_eq_true, Bool.not_eq_true', decide_eq_true_eq]
      exact allocated_of_joined nonempty (sound.perm (List.perm_append_singleton _ _)) aligned
    · have several : 1 < (first :: others.map Prod.fst).length := by
        have some_ := List.countP_pos_iff.mp (Nat.pos_of_ne_zero done)
        obtain ⟨other, member, -⟩ := some_
        have length := List.length_pos_of_mem member
        rw [List.length_cons, List.length_map]
        omega
      rw [if_neg done]
      cases passed : allocationPass currentSliceSize others joined with
      | none =>
        obtain ⟨other, member, odd⟩ := allocationPass_none passed
        refine ⟨false, rfl, iff_of_false (by decide) fun allocated => ?_⟩
        have even := allocated.aligned nonempty several other.1
          (List.mem_cons_of_mem _ (List.mem_map_of_mem member))
        rw [odd] at even
        cases even
      | some result =>
        obtain ⟨after, union, beFound⟩ := result
        obtain ⟨same, unionSound, unionAligned, progress, still⟩ :=
          allocationPass_some others_nonempty sound passed
        cases beFound with
        | true =>
          have fewer := progress rfl
          rw [← same] at nonempty ⊢
          exact ih after union nonempty unionSound
            (fun range member => (unionAligned range member).elim (aligned range) id) (by omega)
        | false =>
          obtain ⟨rfl, rfl, skipped⟩ := still rfl
          exact ⟨false, rfl, iff_of_false (by decide)
            (not_allocated_of_skipped others_nonempty sound done skipped)⟩

end

/-- The check ends after at most as many passes as there are backends, and accepts exactly the splits of
the slice at even positions. -/
theorem checkBackendAllocation_iff (currentSliceSize passes : ℕ) (first : BackendRange) (others : List BackendRange)
    (nonempty : ∀ range ∈ first :: others, range.Nonempty) (enough : others.length < passes) :
    ∃ result, checkBackendAllocation currentSliceSize passes first others = some result ∧
      (result = true ↔
        (first :: others).Pairwise BackendRange.Apart ∧
        (∀ byte, (∃ range ∈ first :: others, range.Holds byte) ↔ byte < currentSliceSize) ∧
        (1 < (first :: others).length → ∀ left ∈ first :: others, ∀ right ∈ first :: others,
          left.currentOffset + left.currentSliceSize = right.currentOffset → 2 ∣ right.currentOffset)) := by
  have ranges : (others.map fun range => (range, false)).map Prod.fst = others := by
    rw [List.map_map]
    exact List.map_id others
  have unchecked : rangesWith true (others.map fun range => (range, false)) = [] := by
    simp [rangesWith]
  have count : beUnchecked (others.map fun range => (range, false)) ≤ others.length := by
    have most := List.countP_le_length (p := fun other : BackendRange × Bool => !other.2)
      (l := others.map fun range => (range, false))
    rwa [List.length_map] at most
  have own := nonempty first List.mem_cons_self
  have pos := own.1
  have start : JoinedRanges.Sound ⟨first.currentOffset, first.currentEnd, false⟩ [first] := by
    rw [BackendRange.currentEnd_eq own]
    refine ⟨by dsimp only; omega, fun byte => ?_, iff_of_true rfl (List.pairwise_singleton _ _)⟩
    simp only [List.mem_singleton, exists_eq_left]
    rfl
  have aligned : ∀ range ∈ rangesWith true (others.map fun range => (range, false)),
      range.aligned currentSliceSize := by
    rw [unchecked]
    exact fun range member => (nomatch member)
  obtain ⟨result, returned, iff⟩ := allocationLoop_iff passes (others.map fun range => (range, false))
    ⟨first.currentOffset, first.currentEnd, false⟩ (by rwa [ranges]) (by rwa [unchecked]) aligned (by omega)
  rw [ranges] at iff
  exact ⟨result, returned, iff.trans ⟨fun allocated => ⟨allocated.apart, allocated.covers, allocated.even⟩,
    fun ⟨apart, covers, even⟩ => ⟨apart, covers, even⟩⟩⟩

/-- Three backends in no order -/
theorem checkBackendAllocation_three :
    ∃ result, checkBackendAllocation 11 3 ⟨4, 4⟩ [⟨8, 3⟩, ⟨0, 4⟩] = some result ∧
      (result = true ↔
        [(⟨4, 4⟩ : BackendRange), ⟨8, 3⟩, ⟨0, 4⟩].Pairwise BackendRange.Apart ∧
        (∀ byte, (∃ range ∈ [(⟨4, 4⟩ : BackendRange), ⟨8, 3⟩, ⟨0, 4⟩], range.Holds byte) ↔ byte < 11) ∧
        (1 < [(⟨4, 4⟩ : BackendRange), ⟨8, 3⟩, ⟨0, 4⟩].length →
          ∀ left ∈ [(⟨4, 4⟩ : BackendRange), ⟨8, 3⟩, ⟨0, 4⟩], ∀ right ∈ [(⟨4, 4⟩ : BackendRange), ⟨8, 3⟩, ⟨0, 4⟩],
            left.currentOffset + left.currentSliceSize = right.currentOffset → 2 ∣ right.currentOffset)) :=
  checkBackendAllocation_iff 11 3 ⟨4, 4⟩ [⟨8, 3⟩, ⟨0, 4⟩] (by simp [BackendRange.Nonempty]) (by decide)

end Par3
