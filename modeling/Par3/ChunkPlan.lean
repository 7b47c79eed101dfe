import Mathlib.Data.Rat.Floor
import Mathlib.Tactic
import Par3.Foundations.FallibleLoops

/-!
# Chunks and the memory limit

Slices that do not fit into memory are processed in chunks, and if chunks of the minimum size do not fit
either, in several passes over the recovery slices. The plan is for the processor alone; the limit can
have a fraction, and the other numbers are small enough for doubles to tell them apart.
-/
namespace Par3

open FallibleLoops

/-- What the plan is made from. The ring has that many recovery buffers, and the processor that many
staging buffers. -/
structure ChunkPlanOpts where
  sliceSize : ℕ
  recoverySlices : ℕ
  memoryLimit : ℚ
  requestedMinChunk : ℕ
  seqReadSize : ℕ
  recDataSize : ℕ
  procInStagingBufferCount : ℕ
  MAX_BUFFER_SIZE : ℕ
  MAX_BUFFER_SIZE_pos : 0 < MAX_BUFFER_SIZE

structure ChunkPlan where
  passes : ℤ
  chunks : ℤ
  slicesPerPass : ℤ
  chunkSize : ℤ
deriving DecidableEq

inductive ChunkPlanError
  | invalidSliceSize
  | minChunkTooLarge (minChunkSize limit : ℕ)
  | minChunkOdd (minChunkSize : ℕ)
  | readBufferTooLarge (seqReadSize limit : ℕ)
  | minChunkOverReadBuffer (minChunkSize seqReadSize : ℕ)
  | recoveryBuffers (memoryLimit : ℚ) (minChunkSize buffers : ℕ)
  | processingBuffers (memoryLimit : ℚ) (cpuMinChunk buffers : ℕ)
  | chunkingDisabled (maxChunkSize sliceSize : ℕ)
  | overhead (memoryLimit : ℚ) (chunkSize buffers : ℤ)
  | oneChunk (memoryLimit : ℚ) (chunkSize : ℤ)
  | chunkRange
deriving DecidableEq

/-- The texts of the errors, with sizes as they are shown. -/
def ChunkPlanError.message (friendlySize : ℚ → String) : ChunkPlanError → String
  | invalidSliceSize => "Invalid slice size specified"
  | minChunkTooLarge minChunkSize limit =>
    "Minimum chunk size (" ++ toString minChunkSize ++
      ") exceeds maximum size supported by this version of Node.js of " ++ toString limit ++ " bytes"
  | minChunkOdd minChunkSize =>
    "Minimum chunk size (" ++ toString minChunkSize ++ ") must be a multiple of 2 bytes"
  | readBufferTooLarge seqReadSize limit =>
    "Read buffer size (" ++ toString seqReadSize ++
      ") exceeds maximum size supported by this version of Node.js of " ++ toString limit ++ " bytes"
  | minChunkOverReadBuffer minChunkSize seqReadSize =>
    "Minimum chunk size (" ++ friendlySize minChunkSize ++ ") cannot exceed read buffer size (" ++
      friendlySize seqReadSize ++ ")"
  | recoveryBuffers memoryLimit minChunkSize buffers =>
    "Cannot accommodate target memory limit (" ++ friendlySize memoryLimit ++
      ") with target minimum chunk size (" ++ friendlySize minChunkSize ++ "). At least " ++
      toString buffers ++ " buffers of the minimum chunk size need to be allocated."
  | processingBuffers memoryLimit cpuMinChunk buffers =>
    "Cannot accommodate target memory limit (" ++ friendlySize memoryLimit ++
      ") with target minimum CPU chunk size (" ++ friendlySize cpuMinChunk ++ "). At least " ++
      toString buffers ++ " buffers of the minimum chunk size need to be allocated."
  | chunkingDisabled maxChunkSize sliceSize =>
    "Cannot disable chunking as maximum chunk size (" ++ friendlySize maxChunkSize ++
      ") is less than the slice size (" ++ friendlySize sliceSize ++ ")"
  | overhead memoryLimit chunkSize buffers =>
    "Cannot accommodate memory limit (" ++ friendlySize memoryLimit ++ "); a chunk size of " ++
      friendlySize chunkSize ++ " was chosen, but a minimum of 1 recovery + " ++ friendlySize buffers ++
      " processing buffer needs to be held in memory"
  | oneChunk memoryLimit chunkSize =>
    "Cannot accommodate target memory limit (" ++ friendlySize memoryLimit ++
      "); a minimum of 1 chunk of size " ++ friendlySize chunkSize ++ " needs to be held in memory"
  | chunkRange => "Cannot accommodate minimum/maximum chunk size"

/-- `Math.ceil` of a quotient -/
def ceilDiv (a b : ℤ) : ℤ := ⌈(a / b : ℚ)⌉

/-- `Math.ceil(size / 2) * 2`, for the staging buffers. -/
def evenSize (size : ℤ) : ℤ := ceilDiv size 2 * 2

namespace ChunkPlanOpts

variable (o : ChunkPlanOpts)

def MAX_BUFFER_SIZE_MOD2 : ℕ := o.MAX_BUFFER_SIZE / 2 * 2

/-- Without recovery slices the limit is ignored. Zero stands for no limit. -/
def minMemoryLimit : ℚ := if o.recoverySlices < 1 then 0 else o.memoryLimit

def ringSize : ℕ := min o.recDataSize o.recoverySlices

/-- The memory beside that of the recovery slices. -/
def transfer (chunkSize : ℤ) : ℤ :=
  max (o.procInStagingBufferCount * evenSize chunkSize) (o.ringSize * chunkSize)

/-- `o.minChunkSize`, which is no larger than a slice -/
def minChunk : ℕ := min o.requestedMinChunk o.sliceSize

/-- The checks before the plan is made. -/
def checkChunks : Except ChunkPlanError Unit :=
  if o.sliceSize < 1 then .error .invalidSliceSize
  else if o.requestedMinChunk > o.MAX_BUFFER_SIZE_MOD2 then
    .error (.minChunkTooLarge o.requestedMinChunk o.MAX_BUFFER_SIZE_MOD2)
  else if o.requestedMinChunk % 2 ≠ 0 then .error (.minChunkOdd o.requestedMinChunk)
  else if o.seqReadSize > o.MAX_BUFFER_SIZE_MOD2 then
    .error (.readBufferTooLarge o.seqReadSize o.MAX_BUFFER_SIZE_MOD2)
  else if o.minChunk > o.seqReadSize then .error (.minChunkOverReadBuffer o.minChunk o.seqReadSize)
  else if o.minMemoryLimit ≠ 0 ∧ o.minChunk ≠ 0 ∧ (o.ringSize + 1) * o.minChunk > o.minMemoryLimit then
    .error (.recoveryBuffers o.minMemoryLimit o.minChunk (o.ringSize + 1))
  else if o.minMemoryLimit ≠ 0 ∧
      evenSize o.minChunk * (o.procInStagingBufferCount + 1) > o.minMemoryLimit then
    .error (.processingBuffers o.minMemoryLimit (evenSize o.minChunk).toNat
      (o.procInStagingBufferCount + 1))
  else .ok ()

def reqMem : ℤ := o.sliceSize * o.recoverySlices + o.transfer o.sliceSize

/-- The number of chunks for the limit and for the size of a read. No chunk fits into no read. -/
def chunkPasses : Option ℤ :=
  if o.seqReadSize = 0 then none
  else some (max (if o.minMemoryLimit ≠ 0 then ⌈o.reqMem / o.minMemoryLimit⌉ else 1)
    (ceilDiv o.sliceSize o.seqReadSize))

/-- The length of a chunk for so many of them. -/
def chunkOf (sliceSize : ℕ) (passes : Option ℤ) : ℤ :=
  let chunkSize := (match passes with
    | some passes => ceilDiv sliceSize passes
    | none => 0) - 1 -- so that rounding up does not overflow
  chunkSize + chunkSize.tmod 2

/-- Without a minimum for chunks, slices are only cut when a buffer cannot hold them. -/
def minChunkSize : ℤ := if o.minChunk = 0 then min o.sliceSize o.MAX_BUFFER_SIZE else o.minChunk

/-- The least length of a chunk. Without a limit the size of a read comes first. -/
def leastChunk (chunkSize : ℤ) : Except ChunkPlanError ℤ :=
  if o.minMemoryLimit = 0 ∧ chunkSize < o.minChunkSize then
    if o.minChunk ≠ 0 then .ok chunkSize
    else .error (.chunkingDisabled o.seqReadSize o.sliceSize)
  else .ok o.minChunkSize

/-- As many slices at a time as fit beside the transfer memory. -/
def cpuSlicesPerPass (chunkSize : ℤ) : Except ChunkPlanError ℤ :=
  let slicesPerPass := ⌊o.minMemoryLimit / chunkSize⌋
  if o.minMemoryLimit ≠ 0 then
    let cpuSlicesPerPass := ⌊(o.minMemoryLimit - o.transfer chunkSize) / chunkSize⌋
    if cpuSlicesPerPass < 1 then
      .error (.overhead o.minMemoryLimit chunkSize (o.transfer chunkSize))
    else .ok (min slicesPerPass cpuSlicesPerPass)
  else .ok slicesPerPass

/-- Several passes over the recovery slices. -/
def partialRecovery (minChunkSize : ℤ) : Except ChunkPlanError ChunkPlan := do
  let chunks := ceilDiv o.sliceSize minChunkSize
  let chunkSize := ceilDiv o.sliceSize chunks
  let chunkSize := chunkSize + chunkSize.tmod 2
  let slicesPerPass ← o.cpuSlicesPerPass chunkSize
  if slicesPerPass < 1 then .error (.oneChunk o.minMemoryLimit chunkSize)
  else if chunkSize > o.seqReadSize then .error .chunkRange
  else .ok ⟨ceilDiv o.recoverySlices slicesPerPass, chunks, slicesPerPass, chunkSize⟩

/-- The plan of the constructor. -/
def plan : Except ChunkPlanError ChunkPlan := do
  o.checkChunks
  if (o.chunkPasses.all fun passes => passes > 1) ∧ o.recoverySlices > 0 then
    let chunkSize := chunkOf o.sliceSize o.chunkPasses
    let minChunkSize ← o.leastChunk chunkSize
    if chunkSize < minChunkSize then o.partialRecovery minChunkSize
    else .ok ⟨1, o.chunkPasses.getD 0, o.recoverySlices, chunkSize⟩
  else .ok ⟨1, 1, o.recoverySlices, o.sliceSize⟩

/-! ## Rounding -/

theorem le_ceilDiv_mul (a : ℤ) {b : ℤ} (pos : 0 < b) : a ≤ ceilDiv a b * b := by
  have bound := Int.le_ceil (a / b : ℚ)
  rw [div_le_iff₀ (by exact_mod_cast pos)] at bound
  rw [ceilDiv]
  exact_mod_cast bound

theorem ceilDiv_sub_one_mul (a : ℤ) {b : ℤ} (pos : 0 < b) : (ceilDiv a b - 1) * b < a := by
  have bound := Int.ceil_lt_add_one (a / b : ℚ)
  rw [← sub_lt_iff_lt_add, lt_div_iff₀ (by exact_mod_cast pos)] at bound
  rw [ceilDiv]
  exact_mod_cast bound

theorem ceilDiv_pos {a b : ℤ} (some : 0 < a) (pos : 0 < b) : 0 < ceilDiv a b := by
  by_contra none
  have covers := le_ceilDiv_mul a pos
  have product := Int.mul_le_mul_of_nonneg_right (not_lt.mp none) pos.le
  omega

/-- A quotient that is rounded up covers exactly what it divides. -/
theorem ceilDiv_mul_le_iff (a : ℤ) {b : ℤ} (pos : 0 < b) : ceilDiv a b * b ≤ a ↔ b ∣ a := by
  have covers := le_ceilDiv_mul a pos
  constructor
  · intro within
    exact ⟨ceilDiv a b, by rw [mul_comm]; omega⟩
  · rintro ⟨c, rfl⟩
    have less := ceilDiv_sub_one_mul (b * c) pos
    rw [mul_comm b c, mul_lt_mul_iff_left₀ pos] at less
    rw [mul_comm b c]
    exact Int.mul_le_mul_of_nonneg_right (by omega) pos.le

theorem evenSize_eq {size : ℤ} (even : 2 ∣ size) : evenSize size = size := by
  obtain ⟨half, rfl⟩ := even
  have half_eq : ((2 * half : ℤ) : ℚ) / (2 : ℤ) = half := by push_cast; ring
  rw [evenSize, ceilDiv, half_eq, Int.ceil_intCast, mul_comm]

theorem le_evenSize (size : ℤ) : size ≤ evenSize size := le_ceilDiv_mul size (by norm_num)

/-- What the ring and the staging buffers take for each byte of a chunk. -/
def buffers : ℤ := o.recoverySlices + max (o.procInStagingBufferCount : ℤ) o.ringSize

theorem transfer_even {size : ℤ} (pos : 0 ≤ size) (even : 2 ∣ size) :
    size * o.recoverySlices + o.transfer size = size * o.buffers := by
  rw [transfer, evenSize_eq even, buffers, mul_add, mul_max_of_nonneg _ _ pos, mul_comm size,
    mul_comm size (o.procInStagingBufferCount : ℤ), mul_comm size (o.ringSize : ℤ)]

theorem mul_buffers_le (size : ℕ) :
    size * o.buffers ≤ size * o.recoverySlices + o.transfer size := by
  have larger := le_evenSize size
  have staged : (o.procInStagingBufferCount : ℤ) * size ≤
      o.procInStagingBufferCount * evenSize size :=
    Int.mul_le_mul_of_nonneg_left larger (Int.natCast_nonneg _)
  rw [buffers, mul_add, mul_max_of_nonneg _ _ (Int.natCast_nonneg size),
    mul_comm (size : ℤ) (o.procInStagingBufferCount : ℤ), mul_comm (size : ℤ) (o.ringSize : ℤ), transfer]
  exact add_le_add_right (max_le_max staged (le_refl _)) _

/-- One less than the quotient is rounded up to an even number: only an even quotient is reached. -/
theorem chunkOf_eq {sliceSize : ℕ} {passes : ℤ} (some : 0 < ceilDiv sliceSize passes) :
    chunkOf sliceSize (.some passes) =
      if 2 ∣ ceilDiv sliceSize passes then ceilDiv sliceSize passes
      else ceilDiv sliceSize passes - 1 := by
  simp only [chunkOf]
  rw [Int.tmod_eq_emod_of_nonneg (by omega)]
  split
  · omega
  · omega

theorem chunkOf_even {sliceSize : ℕ} {passes : ℤ} (some : 0 < ceilDiv sliceSize passes) :
    2 ∣ chunkOf sliceSize (.some passes) := by
  rw [chunkOf_eq some]
  split
  · assumption
  · omega

theorem minMemoryLimit_pos_slices (limited : 0 < o.minMemoryLimit) : 0 < o.recoverySlices := by
  rw [minMemoryLimit] at limited
  split at limited
  · exact absurd limited (lt_irrefl _)
  · omega

/-! ## The plan -/

/-- The slices of a pass and the transfer memory are within the limit. -/
def Fits (plan : ChunkPlan) : Prop :=
  plan.chunkSize * plan.slicesPerPass + o.transfer plan.chunkSize ≤ o.minMemoryLimit

/-- Slices are cut into more than one chunk. -/
def Cut : Prop := (o.chunkPasses.all fun passes => passes > 1) = true

/-- The number of chunks that is tried first. -/
def firstPasses : ℤ := o.chunkPasses.getD 0

/-- All recovery slices are made in one pass of cut slices only if the quotient is odd or its chunks fit
when it is rounded up. -/
def ChunksFit : Prop :=
  o.Cut → o.minChunkSize ≤ chunkOf o.sliceSize o.chunkPasses →
    ¬ 2 ∣ ceilDiv o.sliceSize o.firstPasses ∨
      ceilDiv o.sliceSize o.firstPasses * o.buffers ≤ o.minMemoryLimit

/-- The chunks are together no longer than a slice. -/
def ChunksWithin : Prop :=
  (o.Cut → o.minChunkSize ≤ chunkOf o.sliceSize o.chunkPasses →
    ¬ 2 ∣ ceilDiv o.sliceSize o.firstPasses ∨ o.firstPasses ∣ o.sliceSize) ∧
  (o.Cut → chunkOf o.sliceSize o.chunkPasses < o.minChunkSize →
    ceilDiv o.sliceSize o.minChunkSize ∣ o.sliceSize ∧
      2 ∣ ceilDiv o.sliceSize (ceilDiv o.sliceSize o.minChunkSize))

theorem minChunkSize_pos (some : 0 < o.sliceSize) : 0 < o.minChunkSize := by
  have large := o.MAX_BUFFER_SIZE_pos
  rw [minChunkSize]
  split <;> omega

/-- The chunks of slices that are cut once. -/
theorem cut_within_iff {o : ChunkPlanOpts} {passes : ℤ} (several : 1 < passes) (some : 0 < o.sliceSize) :
    chunkOf o.sliceSize (.some passes) * passes ≤ o.sliceSize ↔
      ¬ 2 ∣ ceilDiv o.sliceSize passes ∨ passes ∣ o.sliceSize := by
  have pos : 0 < passes := by omega
  rw [chunkOf_eq (ceilDiv_pos (by exact_mod_cast some) pos)]
  split
  case isTrue reached => rw [ceilDiv_mul_le_iff _ pos, or_iff_right (not_not.mpr reached)]
  case isFalse odd =>
    exact iff_of_true (ceilDiv_sub_one_mul o.sliceSize pos).le (.inl odd)

section Limited

variable {o} (limited : 0 < o.minMemoryLimit)

include limited

theorem reqMem_le {passes : ℤ} (tried : o.chunkPasses = some passes) :
    o.reqMem ≤ passes * o.minMemoryLimit := by
  rw [chunkPasses] at tried
  split_ifs at tried with noRead limit
  · obtain rfl := Option.some.inj tried
    have bound := (Int.le_ceil (o.reqMem / o.minMemoryLimit)).trans
      (Int.cast_le.mpr (le_max_left ⌈o.reqMem / o.minMemoryLimit⌉ (ceilDiv o.sliceSize o.seqReadSize)))
    rwa [div_le_iff₀ limited] at bound
  · exact absurd limited.ne' limit

/-- Cut slices that are made in one pass. -/
theorem cut_fits_iff {passes : ℤ} (tried : o.chunkPasses = some passes) (several : 1 < passes)
    (some : 0 < o.sliceSize) :
    o.Fits ⟨1, passes, o.recoverySlices, chunkOf o.sliceSize (.some passes)⟩ ↔
      ¬ 2 ∣ ceilDiv o.sliceSize passes ∨
        ceilDiv o.sliceSize passes * o.buffers ≤ o.minMemoryLimit := by
  have pos : 0 < passes := by omega
  have quotient := ceilDiv_pos (by exact_mod_cast some : (0 : ℤ) < o.sliceSize) pos
  have even := chunkOf_even quotient
  have natural : 0 ≤ chunkOf o.sliceSize (.some passes) := by
    rw [chunkOf_eq quotient]
    split
    · omega
    · omega
  have used := transfer_even o natural even
  rw [Fits]
  have cast : ((chunkOf o.sliceSize (.some passes) : ℤ) : ℚ) * ((o.recoverySlices : ℤ) : ℚ) +
      o.transfer (chunkOf o.sliceSize (.some passes)) =
      ((chunkOf o.sliceSize (.some passes) * o.buffers : ℤ) : ℚ) := by
    rw [← used]
    push_cast
    ring
  dsimp only
  rw [cast, chunkOf_eq quotient]
  split
  case isTrue reached =>
    rw [or_iff_right (not_not.mpr reached)]
    push_cast
    rfl
  case isFalse odd =>
    refine iff_of_true ?_ (.inl odd)
    have less := ceilDiv_sub_one_mul o.sliceSize pos
    have most := mul_buffers_le o o.sliceSize
    have needed := reqMem_le limited tried
    have buffersNatural : 0 ≤ o.buffers := by
      rw [buffers]
      omega
    have product : (ceilDiv o.sliceSize passes - 1) * o.buffers * passes ≤ o.reqMem := by
      calc (ceilDiv o.sliceSize passes - 1) * o.buffers * passes
          = (ceilDiv o.sliceSize passes - 1) * passes * o.buffers := by ring
        _ ≤ o.sliceSize * o.buffers := Int.mul_le_mul_of_nonneg_right less.le buffersNatural
        _ ≤ o.reqMem := most
    have together : (((ceilDiv o.sliceSize passes - 1) * o.buffers : ℤ) : ℚ) * passes ≤
        o.minMemoryLimit * passes := by
      rw [mul_comm o.minMemoryLimit]
      refine le_trans ?_ needed
      exact_mod_cast product
    exact le_of_mul_le_mul_right together (by exact_mod_cast pos)

/-- Slices that are not cut. -/
theorem whole_fits {passes : ℤ} (tried : o.chunkPasses = some passes) (one : passes ≤ 1) :
    o.Fits ⟨1, 1, o.recoverySlices, o.sliceSize⟩ := by
  have needed := reqMem_le limited tried
  have within : (passes : ℚ) * o.minMemoryLimit ≤ 1 * o.minMemoryLimit :=
    mul_le_mul_of_nonneg_right (by exact_mod_cast one) limited.le
  have all := needed.trans within
  rw [one_mul, reqMem] at all
  rw [Fits]
  exact_mod_cast all

/-- Several passes take as many slices at a time as fit. -/
theorem partialRecovery_fits {minChunkSize : ℤ} (least : 0 < minChunkSize) (some : 0 < o.sliceSize)
    {plan : ChunkPlan} (planned : o.partialRecovery minChunkSize = .ok plan) :
    o.Fits plan ∧
      (plan.chunkSize * plan.chunks ≤ o.sliceSize ↔
        ceilDiv o.sliceSize minChunkSize ∣ o.sliceSize ∧
          2 ∣ ceilDiv o.sliceSize (ceilDiv o.sliceSize minChunkSize)) := by
  have chunks := ceilDiv_pos (by exact_mod_cast some : (0 : ℤ) < o.sliceSize) least
  have length := ceilDiv_pos (by exact_mod_cast some : (0 : ℤ) < o.sliceSize) chunks
  simp only [partialRecovery] at planned
  rw [Int.tmod_eq_emod_of_nonneg length.le] at planned
  obtain ⟨slicesPerPass, counted, planned⟩ := bind_eq_ok.mp planned
  split_ifs at planned with few wide
  cases planned
  have covers := le_ceilDiv_mul o.sliceSize chunks
  have within := ceilDiv_mul_le_iff o.sliceSize chunks
  generalize ceilDiv o.sliceSize minChunkSize = parts at *
  generalize ceilDiv o.sliceSize parts = size at *
  constructor
  · rw [cpuSlicesPerPass] at counted
    dsimp only at counted
    rw [if_pos limited.ne'] at counted
    split_ifs at counted with none
    cases counted
    have pos : (0 : ℚ) < ((size + size % 2 : ℤ) : ℚ) := by
      exact_mod_cast (by omega : 0 < size + size % 2)
    have floor := Int.floor_le ((o.minMemoryLimit - o.transfer (size + size % 2)) / (size + size % 2 : ℤ))
    rw [le_div_iff₀ pos] at floor
    have fewer : ((min ⌊o.minMemoryLimit / (size + size % 2 : ℤ)⌋
        ⌊(o.minMemoryLimit - o.transfer (size + size % 2)) / (size + size % 2 : ℤ)⌋ : ℤ) : ℚ) ≤
        ⌊(o.minMemoryLimit - o.transfer (size + size % 2)) / (size + size % 2 : ℤ)⌋ :=
      Int.cast_le.mpr (min_le_right _ _)
    have used := mul_le_mul_of_nonneg_right fewer pos.le
    rw [Fits]
    dsimp only
    rw [mul_comm]
    linarith
  · dsimp only
    have product : (size + size % 2) * parts = size * parts + size % 2 * parts := by ring
    rw [← within, product]
    by_cases even : 2 ∣ size
    · rw [Int.emod_eq_zero_of_dvd even, zero_mul, add_zero]
      exact (and_iff_left even).symm
    · have odd : size % 2 = 1 := by omega
      rw [odd, one_mul]
      exact iff_of_false (by omega) fun both => even both.2

/-- A plan fits the limit, and its chunks are no longer than their share, exactly so far. -/
theorem plan_fits_iff {plan : ChunkPlan} (planned : o.plan = .ok plan) :
    (o.Fits plan ↔ o.ChunksFit) ∧
      (plan.chunkSize * plan.chunks ≤ o.sliceSize ↔ o.ChunksWithin) := by
  rw [ChunkPlanOpts.plan] at planned
  obtain ⟨_, checked, planned⟩ := bind_eq_ok.mp planned
  have some : 0 < o.sliceSize := by
    rw [checkChunks] at checked
    split_ifs at checked
    omega
  have slices := minMemoryLimit_pos_slices o limited
  have least := minChunkSize_pos o some
  split_ifs at planned with cut
  · have cuts : o.Cut := cut.1
    obtain ⟨chosen, leastOk, planned⟩ := bind_eq_ok.mp planned
    rw [leastChunk, if_neg (fun none => limited.ne' none.1)] at leastOk
    cases leastOk
    split_ifs at planned with small
    · obtain ⟨fits, within⟩ := partialRecovery_fits limited least some planned
      refine ⟨iff_of_true fits fun _ enough => absurd small (not_lt.mpr enough), within.trans ?_⟩
      exact ⟨fun divides => ⟨fun _ enough => absurd small (not_lt.mpr enough), fun _ _ => divides⟩,
        fun both => both.2 cuts small⟩
    · cases tried : o.chunkPasses with
      | none =>
        rw [tried] at small
        have negative : chunkOf o.sliceSize none = -2 := rfl
        omega
      | some passes =>
        rw [tried] at planned small
        cases planned
        have several : 1 < passes := by
          rw [Cut, tried] at cuts
          simpa using cuts
        have first : o.firstPasses = passes := by rw [firstPasses, tried, Option.getD_some]
        have enough := not_lt.mp small
        constructor
        · rw [Option.getD_some, cut_fits_iff limited tried several some, ChunksFit, first, tried]
          exact ⟨fun fits _ _ => fits, fun fits => fits cuts enough⟩
        · rw [ChunksWithin, first, tried, Option.getD_some]
          have share := @cut_within_iff o passes several some
          exact share.trans ⟨fun within => ⟨fun _ _ => within, fun _ less => absurd less small⟩,
            fun both => both.1 cuts enough⟩
  · cases planned
    have whole : ¬ o.Cut := fun cuts => cut ⟨cuts, slices⟩
    cases tried : o.chunkPasses with
    | none =>
      rw [Cut, tried] at whole
      exact absurd rfl whole
    | some passes =>
      have one : passes ≤ 1 := by
        rw [Cut, tried] at whole
        simpa using whole
      refine ⟨iff_of_true (whole_fits limited tried one) fun cuts => absurd cuts whole,
        iff_of_true ?_ ⟨fun cuts => absurd cuts whole, fun cuts => absurd cuts whole⟩⟩
      exact (mul_one _).le

end Limited

/-- A slice of one megabyte, ten recovery slices, and a limit that asks for three chunks. -/
def megabyte : ChunkPlanOpts where
  sliceSize := 1048576
  recoverySlices := 10
  memoryLimit := 11883862
  requestedMinChunk := 131072
  seqReadSize := 4194304
  recDataSize := 12
  procInStagingBufferCount := 24
  MAX_BUFFER_SIZE := 1073741823 - 1024 - 68
  MAX_BUFFER_SIZE_pos := by norm_num

def sixteen : ChunkPlanOpts := { megabyte with memoryLimit := 16777216 }

/-- With a limit of 16 megabytes there are three chunks of the same length, which fit. -/
theorem plan_fits_sixteen : ∃ plan, sixteen.plan = .ok plan ∧ sixteen.Fits plan := by
  have planned : sixteen.plan = .ok ⟨1, 3, 10, 349526⟩ := by decide +kernel
  have limited : 0 < sixteen.minMemoryLimit := by decide +kernel
  refine ⟨_, planned, (plan_fits_iff limited planned).1.mpr fun _ _ => .inr ?_⟩
  decide +kernel

/-- A third of the slice is rounded up to an even number, so that the plan takes 22 bytes too many. -/
theorem plan_overflows : ∃ plan, megabyte.plan = .ok plan ∧ 0 < megabyte.minMemoryLimit ∧
    ¬ megabyte.Fits plan ∧ ¬ plan.chunkSize * plan.chunks ≤ megabyte.sliceSize := by
  refine ⟨⟨1, 3, 10, 349526⟩, by decide +kernel, by decide +kernel, ?_, by decide +kernel⟩
  rw [Fits]
  decide +kernel

end ChunkPlanOpts

end Par3
