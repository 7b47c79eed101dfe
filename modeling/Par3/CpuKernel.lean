import Par3.Par2ProcCpu

/-!
# The requests of a batch

Every output of every chunk is in one request of a batch, for one and the same thread in all
batches. The request sets the blocks there or adds to them, and leaves all others alone.
-/
namespace Par3

open Interleaving

namespace CpuConfig

/-- Sizes that are divided by are positive, and outputs are counted in 16 bits. -/
structure Sized (cfg : CpuConfig) : Prop where
  stride_pos : 0 < cfg.stride
  interleave_pos : 0 < cfg.idealInterleave
  chunk_pos : 0 < cfg.targetChunkLen
  threads_pos : 0 < cfg.numThreads
  batch_pos : 0 < cfg.inputBatchSize
  areas_pos : 0 < cfg.stagingAreas
  slice_pos : 0 < cfg.currentSliceSize
  few_outputs : cfg.numOutputs < 2 ^ 16

variable {cfg : CpuConfig} (sized : cfg.Sized)

/-! ## Chunks -/

theorem CEIL_DIV_le_iff {a b count : ℕ} (pos : 0 < b) :
    CEIL_DIV a b ≤ count ↔ a ≤ count * b := by
  rw [CEIL_DIV, Nat.div_le_iff_le_mul_add_pred pos, Nat.mul_comm]
  omega

theorem lt_CEIL_DIV_iff {a b index : ℕ} (pos : 0 < b) :
    index < CEIL_DIV a b ↔ index * b < a := by
  rw [← not_le, CEIL_DIV_le_iff pos, not_le]

theorem CEIL_DIV_pos {a b : ℕ} (pos : 0 < b) (some : 0 < a) : 0 < CEIL_DIV a b := by
  rw [lt_CEIL_DIV_iff pos, Nat.zero_mul]
  exact some

section Sized

include sized

theorem alignToStride_eq (len : ℕ) :
    cfg.alignToStride len = cfg.stride * CEIL_DIV len cfg.stride := by
  rw [alignToStride, CEIL_DIV, Nat.mul_comm, Nat.add_sub_assoc sized.stride_pos]

theorem alignedCurrentSliceSize_eq : cfg.alignedCurrentSliceSize =
    cfg.stride * (CEIL_DIV cfg.currentSliceSize cfg.stride + 1) := by
  rw [alignedCurrentSliceSize, alignToStride_eq sized, Nat.mul_succ]

theorem targetChunks_pos : 0 < cfg.targetChunks := by
  simp only [targetChunks]
  split
  · exact lt_of_lt_of_le Nat.zero_lt_one (le_max_right _ _)
  · apply Nat.mul_pos _ sized.threads_pos
    exact lt_of_lt_of_le Nat.zero_lt_one (le_max_right _ _)

/-- A chunk holds some blocks, and no more than the slice. -/
theorem chunkLen_eq : ∃ blocks, 0 < blocks ∧ cfg.chunkLen = cfg.stride * blocks ∧
    blocks ≤ CEIL_DIV cfg.currentSliceSize cfg.stride + 1 := by
  have aligned := alignedCurrentSliceSize_eq sized
  have target := targetChunks_pos sized
  refine ⟨_, ?_, alignToStride_eq sized _, ?_⟩
  · apply CEIL_DIV_pos sized.stride_pos
    apply CEIL_DIV_pos target
    rw [aligned]
    exact Nat.mul_pos sized.stride_pos (Nat.succ_pos _)
  · rw [CEIL_DIV_le_iff sized.stride_pos, CEIL_DIV_le_iff target, Nat.mul_comm _ cfg.stride,
      ← aligned]
    exact Nat.le_mul_of_pos_right _ target

theorem geometry_blocked (packSize interleave : ℕ) (interleave_pos : 0 < interleave) :
    PackedGeometry.Blocked ⟨cfg.alignedCurrentSliceSize - cfg.stride, cfg.stride, packSize,
      cfg.chunkLen, interleave, true⟩ := by
  obtain ⟨blocks, some, chunk, fits⟩ := chunkLen_eq sized
  have aligned := alignedCurrentSliceSize_eq sized
  have slice : cfg.alignedCurrentSliceSize - cfg.stride =
      cfg.stride * CEIL_DIV cfg.currentSliceSize cfg.stride := by
    rw [aligned, Nat.mul_succ, Nat.add_sub_cancel]
  constructor
  · constructor
    · simp only [PackedGeometry.effectiveSliceLen, PackedGeometry.checksumLen, if_true, slice, chunk]
      rw [← Nat.mul_succ]
      exact Nat.mul_le_mul_left _ fits
    · simp only [chunk, Nat.mul_mod_right]
    · simp only [slice, Nat.mul_mod_right]
  · exact sized.stride_pos
  · exact interleave_pos
  · simp only [chunk]
    exact Nat.mul_pos sized.stride_pos some
  · simp only [slice]
    exact Nat.mul_pos sized.stride_pos (CEIL_DIV_pos sized.stride_pos sized.slice_pos)

theorem input_blocked : cfg.inputGeometry.Blocked :=
  geometry_blocked sized _ _ sized.interleave_pos

theorem output_blocked : cfg.outputGeometry.Blocked :=
  geometry_blocked sized _ _ Nat.zero_lt_one

/-- The blocks of a slice with its checksum. -/
theorem aligned_blocks :
    cfg.alignedCurrentSliceSize = cfg.stride * cfg.outputGeometry.inputBlocks := by
  have blocks := PackedGeometry.inputBlocks_mul (output_blocked sized)
  have aligned := alignedCurrentSliceSize_eq sized
  change cfg.stride * _ = _ at blocks
  rw [blocks, PackedGeometry.effectiveSliceLen, PackedGeometry.checksumLen]
  change _ = cfg.alignedCurrentSliceSize - cfg.stride + cfg.stride
  rw [Nat.sub_add_cancel]
  rw [aligned]
  exact Nat.le_mul_of_pos_right _ (Nat.succ_pos _)

theorem chunk_blocks : cfg.chunkLen = cfg.stride * cfg.outputGeometry.chunkBlocks :=
  (PackedGeometry.chunkBlocks_mul (output_blocked sized)).symm

/-- A chunk below the number of chunks begins inside the slice. -/
theorem chunk_lt_iff (chunk : ℕ) : chunk < cfg.numChunks ↔
    chunk * cfg.outputGeometry.chunkBlocks < cfg.outputGeometry.inputBlocks := by
  have pos : 0 < cfg.chunkLen := (output_blocked sized).chunk_pos
  rw [numChunks, lt_CEIL_DIV_iff pos, aligned_blocks sized, chunk_blocks sized,
    Nat.mul_left_comm, Nat.mul_lt_mul_left sized.stride_pos]

/-- The length of a chunk. -/
theorem procSize_eq {chunk : ℕ} (inside : chunk < cfg.numChunks) :
    min (cfg.alignedCurrentSliceSize - chunk * cfg.chunkLen) cfg.chunkLen =
      cfg.stride * cfg.outputGeometry.blocksIn chunk := by
  have pos := PackedGeometry.chunkBlocks_pos (output_blocked sized)
  have whole := Nat.div_add_mod' cfg.outputGeometry.inputBlocks cfg.outputGeometry.chunkBlocks
  have rest := Nat.mod_lt cfg.outputGeometry.inputBlocks pos
  rw [chunk_lt_iff sized] at inside
  rw [aligned_blocks sized, chunk_blocks sized, Nat.mul_left_comm, ← Nat.mul_sub,
    Nat.mul_min_mul_left]
  congr 1
  rw [PackedGeometry.blocksIn]
  split
  case isTrue early =>
    have next := Nat.mul_le_mul_right cfg.outputGeometry.chunkBlocks early
    rw [Nat.succ_mul] at next
    apply min_eq_right
    omega
  case isFalse late =>
    have last : chunk = cfg.outputGeometry.inputBlocks / cfg.outputGeometry.chunkBlocks := by
      apply le_antisymm _ (not_lt.mp late)
      rw [Nat.le_div_iff_mul_le pos]
      exact inside.le
    rw [last]
    rw [min_eq_left]
    · omega
    · omega

/-! ## Regions -/

variable (cfg) in
/-- Where the blocks of an output begin in a chunk. -/
def region (chunk output : ℕ) : ℕ :=
  cfg.outputGeometry.inputBase output (cfg.stride * cfg.outputGeometry.blocksIn chunk) +
    cfg.outputGeometry.chunkStride * chunk

omit sized in
theorem region_eq (chunk output : ℕ) : cfg.region chunk output =
    output * (cfg.stride * cfg.outputGeometry.blocksIn chunk) +
      cfg.chunkLen * cfg.numOutputs * chunk := by
  rw [region, PackedGeometry.inputBase, PackedGeometry.chunkStride]
  change output / 1 * _ * 1 + output % 1 * _ + _ = _
  rw [Nat.div_one, Nat.mod_one, Nat.mul_one, Nat.zero_mul, Nat.add_zero]
  rfl

omit sized in
theorem output_alone (output : ℕ) (inside : output < cfg.numOutputs) :
    cfg.outputGeometry.interleaveBy output = 1 := by
  rw [PackedGeometry.interleaveBy]
  change (if cfg.numOutputs - cfg.numOutputs % 1 ≤ output then _ else _) = _
  rw [if_neg]
  · rfl
  · rw [Nat.mod_one, Nat.sub_zero, not_le]
    exact inside

/-- The blocks of an output follow each other in a chunk. -/
theorem region_block {chunk output block : ℕ} (inside : output < cfg.numOutputs)
    (room : block < cfg.outputGeometry.chunkBlocks) :
    cfg.outputGeometry.slot output (chunk * cfg.outputGeometry.chunkBlocks + block) =
      cfg.region chunk output + cfg.stride * block := by
  have address := PackedGeometry.address_eq (output_blocked sized) output chunk room
  rw [output_alone output inside, Nat.mul_one] at address
  exact address.symm

/-- A block is in the region of its output and its chunk, and in no other. -/
theorem slot_region {chunk output own block : ℕ} (inside : output < cfg.numOutputs)
    (ownInside : own < cfg.numOutputs) (early : chunk < cfg.numChunks)
    (blockInside : block < cfg.outputGeometry.inputBlocks) :
    (cfg.region chunk output ≤ cfg.outputGeometry.slot own block ∧
      cfg.outputGeometry.slot own block <
        cfg.region chunk output + cfg.stride * cfg.outputGeometry.blocksIn chunk) ↔
      block / cfg.outputGeometry.chunkBlocks = chunk ∧ own = output := by
  have pos := PackedGeometry.chunkBlocks_pos (output_blocked sized)
  have whole := Nat.div_add_mod' block cfg.outputGeometry.chunkBlocks
  have room := PackedGeometry.block_room (output_blocked sized) blockInside
  have short := Nat.mod_lt block pos
  have place := @region_block cfg sized (block / cfg.outputGeometry.chunkBlocks) own _ ownInside
    short
  rw [whole] at place
  constructor
  · rintro ⟨lower, upper⟩
    -- the distance to the region is a number of blocks
    have multiple : cfg.stride ∣ cfg.outputGeometry.slot own block -
        cfg.region chunk output := by
      apply Nat.dvd_sub
      · exact ⟨_, rfl⟩
      · rw [region_eq, chunk_blocks sized]
        apply dvd_add
        · exact ⟨output * cfg.outputGeometry.blocksIn chunk, by ring⟩
        · exact ⟨cfg.outputGeometry.chunkBlocks * cfg.numOutputs * chunk, by ring⟩
    obtain ⟨offset, distance⟩ := multiple
    have before : offset < cfg.outputGeometry.blocksIn chunk := by
      apply Nat.lt_of_mul_lt_mul_left (a := cfg.stride)
      omega
    have chunkEnd := @PackedGeometry.chunk_end _ (output_blocked sized) chunk (by
      rw [Nat.le_div_iff_mul_le pos]
      exact ((chunk_lt_iff sized chunk).mp early).le)
    have there := @region_block cfg sized chunk _ _ inside (lt_of_lt_of_le before chunkEnd.1)
    have same : cfg.outputGeometry.slot own block =
        cfg.outputGeometry.slot output (chunk * cfg.outputGeometry.chunkBlocks + offset) := by
      rw [there]
      omega
    obtain ⟨outputs, blocks⟩ := PackedGeometry.slot_injective (output_blocked sized) ownInside
      inside blockInside (by omega) same
    refine ⟨?_, outputs⟩
    rw [blocks, Nat.mul_comm, Nat.mul_add_div pos,
      Nat.div_eq_of_lt (lt_of_lt_of_le before chunkEnd.1), Nat.add_zero]
  · rintro ⟨rfl, rfl⟩
    rw [place]
    constructor
    · exact Nat.le_add_right _ _
    · apply Nat.add_lt_add_left
      exact Nat.mul_lt_mul_of_pos_left room sized.stride_pos

/-- A block of an output is computed from the same block of each input. -/
theorem source_block {chunk output block : ℕ} (inside : output < cfg.numOutputs)
    (here : block / cfg.outputGeometry.chunkBlocks = chunk) (input : ℕ) :
    chunk * cfg.chunkLen * cfg.inputBatchSize +
        (cfg.inputGeometry.inputBase input
            (cfg.stride * cfg.outputGeometry.blocksIn chunk) +
          cfg.stride * ((cfg.outputGeometry.slot output block - cfg.region chunk output) /
            cfg.stride) * cfg.inputGeometry.interleaveBy input) =
      cfg.inputGeometry.slot input block := by
  have pos := PackedGeometry.chunkBlocks_pos (output_blocked sized)
  have whole := Nat.div_add_mod' block cfg.outputGeometry.chunkBlocks
  have short := Nat.mod_lt block pos
  have place := @region_block cfg sized chunk _ _ inside short
  rw [here] at whole
  rw [whole] at place
  have address := PackedGeometry.address_eq (input_blocked sized) input chunk short
  have same : chunk * cfg.inputGeometry.chunkBlocks +
      block % cfg.outputGeometry.chunkBlocks = block := whole
  rw [same] at address
  rw [place, Nat.add_sub_cancel_left, Nat.mul_div_cancel_left _ sized.stride_pos, ← address]
  change _ = cfg.inputGeometry.inputBase input
    (cfg.stride * cfg.outputGeometry.blocksIn chunk) +
    cfg.chunkLen * cfg.inputBatchSize * chunk +
    cfg.stride * (block % cfg.outputGeometry.chunkBlocks) *
      cfg.inputGeometry.interleaveBy input
  ring

end Sized

/-! ## Requests -/

variable (cfg) in
/-- A request is for chunks of the slice, and for outputs that there are. -/
structure Fits (req : ComputeReq) (chunk : ℕ) : Prop where
  input : req.input = chunk * cfg.chunkLen * cfg.inputBatchSize
  chunks : chunk + req.numChunks ≤ cfg.numChunks
  outputs : req.firstOutput + req.numOutputs ≤ cfg.numOutputs
  size : ∀ round < req.numChunks, min (req.len - round * cfg.chunkLen) cfg.chunkLen =
    cfg.stride * cfg.outputGeometry.blocksIn (chunk + round)
  place : ∀ round < req.numChunks, ∀ out, req.output +
    (out * (cfg.stride * cfg.outputGeometry.blocksIn (chunk + round)) +
      round * req.numOutputs * cfg.chunkLen) =
        cfg.region (chunk + round) (req.firstOutput + out)

/-- A request that begins at a chunk is for an output in another chunk. -/
def Covers (req : ComputeReq) (chunk : ℕ) (own output : ℕ) : Prop :=
  (chunk ≤ own ∧ own < chunk + req.numChunks) ∧
    req.firstOutput ≤ output ∧ output < req.firstOutput + req.numOutputs

instance (req : ComputeReq) (chunk own output : ℕ) : Decidable (Covers req chunk own output) :=
  instDecidableAnd

section Worker

variable (src : ℕ → Block) (procCoeffs : ℕ → Gf16) {req : ComputeReq} {chunk output block : ℕ}

variable (cfg) in
/-- What a request adds to a block of an output. -/
def requestTerm (numInputs output block : ℕ) : Block :=
  ∑ input ∈ Finset.range numInputs,
    procCoeffs (output * cfg.inputBatchSize + input) •
      src (cfg.inputGeometry.slot input block)

/-- Multiplying by one is adding. -/
theorem ite_add_multi {coefficients : ℕ → Gf16} {numInputs dst input len : ℕ} {multiplies : Prop}
    [Decidable multiplies] (ones : ¬ multiplies → ∀ region < numInputs, coefficients region = 1) :
    (if multiplies then [cfg.mul_add_multi src coefficients numInputs dst input len]
      else [cfg.add_multi src numInputs dst input len]) =
      [cfg.mul_add_multi src coefficients numInputs dst input len] := by
  split
  case isTrue => rfl
  case isFalse adds =>
    apply congrArg (fun step => [step])
    funext memory address
    apply ite_congr rfl _ fun _ => rfl
    intro _
    apply congrArg (memory address + ·)
    apply Finset.sum_congr rfl
    intro region member
    rw [ones adds region (Finset.mem_range.mp member)]

include sized

theorem workerOutput_once (fits : cfg.Fits req chunk) {round out : ℕ}
    (early : round < req.numChunks) (inside : out < req.numOutputs)
    (here : block / cfg.outputGeometry.chunkBlocks = chunk + round)
    (blockInside : block < cfg.outputGeometry.inputBlocks)
    (shortcut : cfg.outputExponents.getD (req.firstOutput + out) 0 = 0 →
      ∀ input < req.numInputs,
        procCoeffs ((req.firstOutput + out) * cfg.inputBatchSize + input) = 1) :
    Acts (cfg.workerOutput src procCoeffs req round out)
      (cfg.outputGeometry.slot (req.firstOutput + out) block)
      (fun old => (if req.add then old else 0) +
        cfg.requestTerm src procCoeffs req.numInputs (req.firstOutput + out) block) := by
  have outputInside : req.firstOutput + out < cfg.numOutputs := by
    have outputs := fits.outputs
    omega
  have chunkInside : chunk + round < cfg.numChunks := by
    have chunks := fits.chunks
    omega
  have within := (slot_region sized outputInside outputInside chunkInside blockInside).mpr
    ⟨here, rfl⟩
  have sources := source_block sized outputInside here
  have pointer : req.input + round * cfg.chunkLen * cfg.inputBatchSize =
      (chunk + round) * cfg.chunkLen * cfg.inputBatchSize := by
    rw [fits.input]
    ring
  intro memory
  have index (region : ℕ) : req.firstOutput * cfg.inputBatchSize +
      (out * cfg.inputBatchSize + region) =
        (req.firstOutput + out) * cfg.inputBatchSize + region := by ring
  have product := @ite_add_multi cfg src
    (fun region => procCoeffs ((req.firstOutput + out) * cfg.inputBatchSize + region))
    req.numInputs (cfg.region (chunk + round) (req.firstOutput + out))
    ((chunk + round) * cfg.chunkLen * cfg.inputBatchSize)
    (cfg.stride * cfg.outputGeometry.blocksIn (chunk + round))
    ((round + 1 = req.numChunks ∧ out + 1 = req.numOutputs) ∨
      cfg.outputExponents.getD (req.firstOutput + out) 0 ≠ 0) _
    fun adds => shortcut (not_not.mp (not_or.mp adds).2)
  simp only [workerOutput, fits.size round early, fits.place round early, pointer, index, product]
  rw [perform_append, perform_cons, perform_nil, mul_add_multi, if_pos within]
  simp only [sources]
  rw [requestTerm]
  congr 1
  cases req.add with
  | true => simp only [if_true, perform_nil]
  | false =>
    simp only [Bool.false_eq_true, if_false]
    rw [perform_cons, perform_nil, memsetBlocks, if_pos within]

theorem workerOutput_keeps (fits : cfg.Fits req chunk) {round out : ℕ}
    (early : round < req.numChunks) (inside : out < req.numOutputs)
    (outputInside : output < cfg.numOutputs)
    (blockInside : block < cfg.outputGeometry.inputBlocks)
    (apart : ¬ (block / cfg.outputGeometry.chunkBlocks = chunk + round ∧
      output = req.firstOutput + out)) :
    Acts (cfg.workerOutput src procCoeffs req round out)
      (cfg.outputGeometry.slot output block) id := by
  have ownInside : req.firstOutput + out < cfg.numOutputs := by
    have outputs := fits.outputs
    omega
  have chunkInside : chunk + round < cfg.numChunks := by
    have chunks := fits.chunks
    omega
  have outside := (not_congr
    (slot_region sized ownInside outputInside chunkInside blockInside)).mpr apart
  simp only [workerOutput, fits.size round early, fits.place round early]
  apply Acts.append_keeps
  · split
    · exact Acts.nil
    · intro memory
      exact if_neg outside
  · split
    · intro memory
      exact if_neg outside
    · intro memory
      exact if_neg outside

/-- A request sets a block that it is for, or adds to it. -/
theorem compute_worker_once (fits : cfg.Fits req chunk)
    (covers : Covers req chunk (block / cfg.outputGeometry.chunkBlocks) output)
    (blockInside : block < cfg.outputGeometry.inputBlocks)
    (shortcut : cfg.outputExponents.getD output 0 = 0 → ∀ input < req.numInputs,
      procCoeffs (output * cfg.inputBatchSize + input) = 1) :
    Acts (cfg.compute_worker src procCoeffs req) (cfg.outputGeometry.slot output block)
      (fun old => (if req.add then old else 0) +
        cfg.requestTerm src procCoeffs req.numInputs output block) := by
  obtain ⟨⟨first, last⟩, low, high⟩ := covers
  obtain ⟨round, here⟩ := Nat.exists_eq_add_of_le first
  obtain ⟨out, rfl⟩ := Nat.exists_eq_add_of_le low
  have early : round < req.numChunks := by omega
  have inside : out < req.numOutputs := by omega
  have outputInside : req.firstOutput + out < cfg.numOutputs := by
    have outputs := fits.outputs
    omega
  apply Acts.once List.nodup_range (List.mem_range.mpr early)
  · apply Acts.once List.nodup_range (List.mem_range.mpr inside)
    · exact workerOutput_once sized src procCoeffs fits early inside here blockInside shortcut
    · intro other member distinct
      apply workerOutput_keeps sized src procCoeffs fits early (List.mem_range.mp member)
        outputInside blockInside
      omega
  · intro other member distinct
    apply Acts.keeps
    intro out member'
    apply workerOutput_keeps sized src procCoeffs fits (List.mem_range.mp member)
      (List.mem_range.mp member') outputInside blockInside
    omega

/-- A request leaves all other blocks alone. -/
theorem compute_worker_keeps (fits : cfg.Fits req chunk)
    (apart : ¬ Covers req chunk (block / cfg.outputGeometry.chunkBlocks) output)
    (outputInside : output < cfg.numOutputs)
    (blockInside : block < cfg.outputGeometry.inputBlocks) :
    Acts (cfg.compute_worker src procCoeffs req) (cfg.outputGeometry.slot output block)
      id := by
  apply Acts.keeps
  intro round early
  apply Acts.keeps
  intro out inside
  rw [List.mem_range] at early inside
  apply workerOutput_keeps sized src procCoeffs fits early inside outputInside blockInside
  rintro ⟨here, rfl⟩
  apply apart
  rw [Covers]
  omega

end Worker

/-! ## The requests of a batch -/

section Kernel

variable {inBuf numInputs : ℕ} {add : Bool} {thread : ℕ}

theorem outputsBefore_monotone : Monotone cfg.outputsBefore := fun _ _ order =>
  Nat.div_le_div_right (Nat.add_le_add_right (Nat.mul_le_mul_left _ order) _)

theorem outputsBefore_first (some : 0 < cfg.threadsPerChunk) : cfg.outputsBefore 0 = 0 := by
  rw [outputsBefore, Nat.mul_zero, Nat.zero_add]
  apply Nat.div_eq_of_lt
  omega

theorem outputsBefore_last (some : 0 < cfg.threadsPerChunk) :
    cfg.outputsBefore cfg.threadsPerChunk = cfg.numOutputs := by
  have parts : 2 * cfg.numOutputs * cfg.threadsPerChunk + cfg.threadsPerChunk =
      2 * cfg.threadsPerChunk * cfg.numOutputs + cfg.threadsPerChunk := by ring
  rw [outputsBefore, parts, Nat.mul_add_div (by omega), Nat.div_eq_of_lt (by omega), Nat.add_zero]

theorem chunks_split : cfg.leftoverChunks + cfg.numThreads * cfg.fullChunksPerThread =
    cfg.numChunks := by
  rw [leftoverChunks, fullChunksPerThread, Nat.add_comm, Nat.div_add_mod]

include sized

theorem threadsPerChunk_pos (left : cfg.leftoverChunks ≠ 0) (some : cfg.numOutputs ≠ 0) :
    0 < cfg.threadsPerChunk := by
  rw [threadsPerChunk, Nat.lt_min]
  constructor
  · apply Nat.div_pos _ (Nat.pos_of_ne_zero left)
    exact (Nat.mod_lt _ sized.threads_pos).le
  · exact Nat.pos_of_ne_zero some

theorem leftoverReq_outputs (some : 0 < cfg.threadsPerChunk) :
    (cfg.leftoverReq inBuf numInputs add thread).firstOutput +
        (cfg.leftoverReq inBuf numInputs add thread).numOutputs =
      cfg.outputsBefore (thread % cfg.threadsPerChunk + 1) ∧
    cfg.outputsBefore (thread % cfg.threadsPerChunk + 1) ≤ cfg.numOutputs := by
  have upper : cfg.outputsBefore (thread % cfg.threadsPerChunk + 1) ≤ cfg.numOutputs := by
    rw [← outputsBefore_last some]
    exact outputsBefore_monotone (Nat.mod_lt thread some)
  have order : cfg.outputsBefore (thread % cfg.threadsPerChunk) ≤
      cfg.outputsBefore (thread % cfg.threadsPerChunk + 1) :=
    outputsBefore_monotone (Nat.le_succ _)
  have few := sized.few_outputs
  refine ⟨?_, upper⟩
  have small : (cfg.outputsBefore (thread % cfg.threadsPerChunk + 1) -
      cfg.outputsBefore (thread % cfg.threadsPerChunk)) % 2 ^ 16 =
        cfg.outputsBefore (thread % cfg.threadsPerChunk + 1) -
          cfg.outputsBefore (thread % cfg.threadsPerChunk) := Nat.mod_eq_of_lt (by omega)
  simp only [leftoverReq, small]
  exact Nat.add_sub_cancel' order

theorem leftoverReq_fits (left : cfg.leftoverChunks ≠ 0) (some : cfg.numOutputs ≠ 0)
    (used : thread < cfg.usedThreads) :
    cfg.Fits (cfg.leftoverReq inBuf numInputs add thread)
      (thread / cfg.threadsPerChunk) := by
  have pos := threadsPerChunk_pos sized left some
  obtain ⟨outputs, upper⟩ := @leftoverReq_outputs cfg sized inBuf numInputs add thread pos
  have chunk : thread / cfg.threadsPerChunk < cfg.leftoverChunks := by
    rw [Nat.div_lt_iff_lt_mul pos, Nat.mul_comm]
    exact used
  have inside : thread / cfg.threadsPerChunk < cfg.numChunks := by
    have split := @chunks_split cfg
    omega
  have length := procSize_eq sized inside
  constructor
  · rfl
  · exact inside
  · omega
  · intro round first
    obtain rfl : round = 0 := Nat.lt_one_iff.mp first
    simp only [leftoverReq, length, Nat.zero_mul, Nat.sub_zero, Nat.add_zero]
    rw [← length]
    exact min_eq_left (min_le_right _ _)
  · intro round first out
    obtain rfl : round = 0 := Nat.lt_one_iff.mp first
    rw [region_eq]
    simp only [leftoverReq, length, Nat.zero_mul, Nat.add_zero]
    ring

theorem chunksReq_fits (inside : thread < cfg.numThreads) :
    cfg.Fits (cfg.chunksReq inBuf numInputs add thread)
      (cfg.leftoverChunks + thread * cfg.fullChunksPerThread) := by
  have split := @chunks_split cfg
  have few : cfg.numOutputs % 2 ^ 16 = cfg.numOutputs := Nat.mod_eq_of_lt sized.few_outputs
  have later := Nat.mul_le_mul_right cfg.fullChunksPerThread inside
  rw [Nat.succ_mul] at later
  have ends : cfg.leftoverChunks + thread * cfg.fullChunksPerThread +
      cfg.fullChunksPerThread ≤ cfg.numChunks := by omega
  constructor
  · rfl
  · exact ends
  · simp only [chunksReq, few, Nat.zero_add, le_refl]
  · intro round early
    have early : round < cfg.fullChunksPerThread := early
    have length := procSize_eq sized (lt_of_lt_of_le (Nat.add_lt_add_left early _) ends)
    have room := Nat.mul_le_mul_left cfg.chunkLen early
    rw [Nat.mul_succ] at room
    have start : (cfg.leftoverChunks + thread * cfg.fullChunksPerThread + round) *
        cfg.chunkLen = (cfg.leftoverChunks + thread * cfg.fullChunksPerThread) *
          cfg.chunkLen + round * cfg.chunkLen := Nat.add_mul _ _ _
    rw [← length, start]
    simp only [chunksReq]
    rw [Nat.mul_comm round] at *
    omega
  · intro round early out
    rw [region_eq]
    simp only [chunksReq, few, Nat.zero_add]
    ring

/-! ### Every block in one request -/

/-- Where a request begins is in its pointer to the inputs. -/
theorem Fits.chunk_eq {req : ComputeReq} {chunk : ℕ} (fits : cfg.Fits req chunk) :
    req.input / (cfg.chunkLen * cfg.inputBatchSize) = chunk := by
  have pos : 0 < cfg.chunkLen := (output_blocked sized).chunk_pos
  rw [fits.input, Nat.mul_assoc]
  exact Nat.mul_div_cancel _ (Nat.mul_pos pos sized.batch_pos)

omit sized in
variable (cfg) in
/-- A request is for an output in a chunk. -/
def Contains (own output : ℕ) (entry : ℕ × ComputeReq) : Prop :=
  Covers entry.2 (entry.2.input / (cfg.chunkLen * cfg.inputBatchSize)) own output

omit sized in
/-- The one number in a range with a property. -/
theorem filter_range {count index : ℕ} (property : ℕ → Bool) (inside : index < count)
    (has : property index = true) (alone : ∀ other < count, property other = true → other = index) :
    (List.range count).filter property = [index] := by
  apply List.perm_singleton.mp
  rw [List.perm_ext_iff_of_nodup (List.nodup_range.filter property) (List.nodup_singleton index)]
  intro other
  rw [List.mem_filter, List.mem_range, List.mem_singleton]
  constructor
  · rintro ⟨below, found⟩
    exact alone other below found
  · rintro rfl
    exact ⟨inside, has⟩

variable {own output : ℕ}

instance : DecidablePred (cfg.Contains own output) := fun _ => instDecidableAnd

theorem contains_leftover (left : cfg.leftoverChunks ≠ 0) (some : cfg.numOutputs ≠ 0)
    (used : thread < cfg.usedThreads) :
    cfg.Contains own output (thread, cfg.leftoverReq inBuf numInputs add thread) ↔
      thread / cfg.threadsPerChunk = own ∧
        cfg.outputsBefore (thread % cfg.threadsPerChunk) ≤ output ∧
          output < cfg.outputsBefore (thread % cfg.threadsPerChunk + 1) := by
  have pos := threadsPerChunk_pos sized left some
  obtain ⟨outputs, -⟩ := @leftoverReq_outputs cfg sized inBuf numInputs add thread pos
  have fits := @leftoverReq_fits cfg sized inBuf numInputs add thread left some used
  rw [Contains, fits.chunk_eq sized, Covers, outputs]
  change (thread / cfg.threadsPerChunk ≤ own ∧ own < thread / cfg.threadsPerChunk + 1) ∧
    cfg.outputsBefore (thread % cfg.threadsPerChunk) ≤ output ∧ _ ↔ _
  apply and_congr_left'
  omega

theorem contains_chunks (inside : thread < cfg.numThreads) (known : output < cfg.numOutputs) :
    cfg.Contains own output (thread, cfg.chunksReq inBuf numInputs add thread) ↔
      cfg.leftoverChunks + thread * cfg.fullChunksPerThread ≤ own ∧
        own < cfg.leftoverChunks + thread * cfg.fullChunksPerThread +
          cfg.fullChunksPerThread := by
  have fits := @chunksReq_fits cfg sized inBuf numInputs add thread inside
  have few : cfg.numOutputs % 2 ^ 16 = cfg.numOutputs := Nat.mod_eq_of_lt sized.few_outputs
  rw [Contains, fits.chunk_eq sized, Covers]
  change (_ ∧ own < _ + cfg.fullChunksPerThread) ∧
    0 ≤ output ∧ output < 0 + cfg.numOutputs % 2 ^ 16 ↔ _
  rw [few]
  apply and_iff_left
  omega

/-- Every output of every chunk is in one request of a batch, and always for the same thread. -/
theorem run_kernel_once (early : own < cfg.numChunks) (known : output < cfg.numOutputs) :
    ∃ thread, ∀ inBuf numInputs add, ∃ req : ComputeReq,
      (cfg.run_kernel inBuf numInputs add).filter
        (fun entry => cfg.Contains own output entry) = [(thread, req)] ∧
      req.numInputs = numInputs ∧ req.add = add ∧ req.procIdx = inBuf := by
  have some : cfg.numOutputs ≠ 0 := by omega
  have split := @chunks_split cfg
  by_cases leftover : own < cfg.leftoverChunks
  · have left : cfg.leftoverChunks ≠ 0 := by omega
    have pos := threadsPerChunk_pos sized left some
    obtain ⟨part, partInside, lower, upper⟩ := @exists_part cfg.outputsBefore
      cfg.threadsPerChunk output
      (by rw [outputsBefore_first pos]; exact Nat.zero_le _)
      (by rw [outputsBefore_last pos]; exact known)
    have quotient : (own * cfg.threadsPerChunk + part) / cfg.threadsPerChunk = own := by
      rw [Nat.mul_comm, Nat.mul_add_div pos, Nat.div_eq_of_lt partInside, Nat.add_zero]
    have remainder : (own * cfg.threadsPerChunk + part) % cfg.threadsPerChunk = part := by
      rw [Nat.mul_comm, Nat.mul_add_mod, Nat.mod_eq_of_lt partInside]
    have used : own * cfg.threadsPerChunk + part < cfg.usedThreads := by
      have row := Nat.mul_le_mul_right cfg.threadsPerChunk leftover
      rw [Nat.succ_mul] at row
      rw [usedThreads, Nat.mul_comm cfg.threadsPerChunk]
      omega
    refine ⟨own * cfg.threadsPerChunk + part, fun inBuf numInputs add =>
      ⟨cfg.leftoverReq inBuf numInputs add (own * cfg.threadsPerChunk + part), ?_, rfl, rfl,
        rfl⟩⟩
    rw [run_kernel, if_neg some, if_pos left, List.filter_append, List.filter_map,
      filter_range _ used]
    · have none : ((if cfg.fullChunksPerThread ≠ 0 then (List.range cfg.numThreads).map
          fun thread => (thread, cfg.chunksReq inBuf numInputs add thread) else []).filter
            fun entry => cfg.Contains own output entry) = [] := by
        rw [List.filter_eq_nil_iff]
        intro entry member contains
        split at member
        · obtain ⟨thread, inside, rfl⟩ := List.mem_map.mp member
          have range := (contains_chunks sized (List.mem_range.mp inside) known).mp
            (of_decide_eq_true contains)
          omega
        · cases member
      rw [none]
      rfl
    · apply decide_eq_true
      rw [contains_leftover sized left some used, quotient, remainder]
      exact ⟨rfl, lower, upper⟩
    · intro other below contains
      obtain ⟨chunk, low, high⟩ := (contains_leftover sized left some below).mp
        (of_decide_eq_true contains)
      have same := part_unique outputsBefore_monotone ⟨low, high⟩ ⟨lower, upper⟩
      rw [← Nat.div_add_mod' other cfg.threadsPerChunk, chunk, same]
  · have full : cfg.fullChunksPerThread ≠ 0 := by
      intro none
      rw [none, Nat.mul_zero] at split
      omega
    have pos := Nat.pos_of_ne_zero full
    have whole := Nat.div_add_mod' (own - cfg.leftoverChunks) cfg.fullChunksPerThread
    have rest := Nat.mod_lt (own - cfg.leftoverChunks) pos
    have inside : (own - cfg.leftoverChunks) / cfg.fullChunksPerThread < cfg.numThreads := by
      rw [Nat.div_lt_iff_lt_mul pos]
      omega
    refine ⟨(own - cfg.leftoverChunks) / cfg.fullChunksPerThread, fun inBuf numInputs add =>
      ⟨cfg.chunksReq inBuf numInputs add
        ((own - cfg.leftoverChunks) / cfg.fullChunksPerThread), ?_, rfl, rfl, rfl⟩⟩
    rw [run_kernel, if_neg some, if_pos full, List.filter_append, List.filter_map,
      filter_range _ inside]
    · have none : ((if cfg.leftoverChunks ≠ 0 then (List.range cfg.usedThreads).map
          fun thread => (thread, cfg.leftoverReq inBuf numInputs add thread) else []).filter
            fun entry => cfg.Contains own output entry) = [] := by
        rw [List.filter_eq_nil_iff]
        intro entry member contains
        split at member
        case isTrue left =>
          obtain ⟨thread, used, rfl⟩ := List.mem_map.mp member
          rw [List.mem_range] at used
          obtain ⟨chunk, -⟩ := (contains_leftover sized left some used).mp
            (of_decide_eq_true contains)
          apply leftover
          rw [← chunk, Nat.div_lt_iff_lt_mul (threadsPerChunk_pos sized left some), Nat.mul_comm]
          exact used
        case isFalse => cases member
      rw [none]
      rfl
    · apply decide_eq_true
      rw [contains_chunks sized inside known]
      omega
    · intro other below contains
      obtain ⟨low, high⟩ := (contains_chunks sized below known).mp (of_decide_eq_true contains)
      have part : own - cfg.leftoverChunks = cfg.fullChunksPerThread * other +
          (own - cfg.leftoverChunks - cfg.fullChunksPerThread * other) := by
        rw [Nat.mul_comm] at low high
        omega
      rw [part, Nat.mul_add_div pos, Nat.div_eq_of_lt, Nat.add_zero]
      rw [Nat.mul_comm] at low high
      omega

theorem run_kernel_fits {entry : ℕ × ComputeReq}
    (member : entry ∈ cfg.run_kernel inBuf numInputs add) :
    entry.2.procIdx = inBuf ∧ ∃ chunk, cfg.Fits entry.2 chunk := by
  rw [run_kernel] at member
  split at member
  case isTrue => cases member
  case isFalse some =>
    rw [List.mem_append] at member
    obtain member | member := member
    · split at member
      case isTrue left =>
        obtain ⟨thread, used, rfl⟩ := List.mem_map.mp member
        exact ⟨rfl, _, leftoverReq_fits sized left some (List.mem_range.mp used)⟩
      case isFalse => cases member
    · split at member
      case isTrue =>
        obtain ⟨thread, inside, rfl⟩ := List.mem_map.mp member
        exact ⟨rfl, _, chunksReq_fits sized (List.mem_range.mp inside)⟩
      case isFalse => cases member

/-- An area waits for as many requests as are sent. -/
theorem run_kernel_length (some : cfg.numOutputs ≠ 0) :
    (cfg.run_kernel inBuf numInputs add).length = cfg.kernelRefs ∧ 0 < cfg.kernelRefs := by
  have split := @chunks_split cfg
  have chunks : 0 < cfg.numChunks := by
    rw [chunk_lt_iff sized, Nat.zero_mul]
    exact lt_of_lt_of_le (PackedGeometry.chunkBlocks_pos (output_blocked sized))
      (PackedGeometry.chunkBlocks_le (output_blocked sized))
  have threads := sized.threads_pos
  rw [run_kernel, if_neg some, kernelRefs]
  by_cases left : cfg.leftoverChunks = 0
  · have full : cfg.fullChunksPerThread ≠ 0 := by
      intro none
      rw [left, none] at split
      omega
    rw [if_neg (not_not.mpr left), if_neg (not_not.mpr left), if_pos full, List.nil_append,
      List.length_map, List.length_range]
    exact ⟨rfl, threads⟩
  · have used : 0 < cfg.usedThreads :=
      Nat.mul_pos (threadsPerChunk_pos sized left some) (Nat.pos_of_ne_zero left)
    rw [if_pos left, if_pos left, List.length_append, List.length_map, List.length_range]
    by_cases full : cfg.fullChunksPerThread = 0
    · rw [if_neg (not_not.mpr full), if_neg (not_not.mpr full), List.length_nil]
      omega
    · rw [if_pos full, if_pos full, List.length_map, List.length_range]
      omega

end Kernel

end CpuConfig

end Par3
