import Par3.PreparePacked

/-!
# The blocks that packing writes

The loops over chunks and positions are one loop over the blocks of the slice: the blocks of the
input, transformed, and behind them blocks of zeros. A part writes the blocks it covers.
-/
namespace Par3

namespace PackedGeometry

open FallibleLoops

variable (geom : PackedGeometry) (transform : BlockTransform) (check : ChecksumTransform)
  (src : Buffer) (inputNum : ℕ)

/-! ## One loop over the blocks -/

/-- The bytes of a block of the input. -/
def srcBlock (block : ℕ) : Buffer :=
  slice src (geom.blockLen * block) (geom.blockLen * block + geom.blockLen)

/-- The input has all bytes of a block. -/
def FullBlock (block : ℕ) : Prop := geom.blockLen * (block + 1) ≤ src.length

/-- The input has some bytes of a block. -/
def DataBlock (block : ℕ) : Prop := geom.blockLen * block < src.length

instance (block : ℕ) : Decidable (geom.FullBlock src block) := Nat.decLe _ _

instance (block : ℕ) : Decidable (geom.DataBlock src block) := Nat.decLt _ _

/-- What packing writes for a block. -/
def packedBlock (block : ℕ) : Buffer :=
  if geom.FullBlock src block then transform.prepareBlock (geom.srcBlock src block)
  else if geom.DataBlock src block then transform.prepareBlockU (geom.srcBlock src block)
  else List.replicate geom.blockLen 0

/-- How a block changes the checksum. -/
def checkBlock (block : ℕ) (checksum : Buffer) : Buffer :=
  if geom.hasChecksum then
    if geom.FullBlock src block then check.checksumBlock (geom.srcBlock src block) checksum
    else if geom.DataBlock src block then
      check.checksumBlockU (geom.srcBlock src block) checksum
    else checksum
  else checksum

/-- The state behind a block. -/
def afterBlock (state : PrepareState) (block : ℕ) : PrepareState where
  dst := Function.update state.dst (geom.slot inputNum block)
    (geom.packedBlock transform src block)
  checksum := geom.checkBlock check src block state.checksum
  partLeft := state.partLeft - geom.blockLen

/-- Write a block, unless the part is done. -/
def writeBlock (state : PrepareState) (block : ℕ) : Except PrepareState PrepareState :=
  unlessDone state (geom.afterBlock transform check src inputNum state block)

/-- The input's number of full blocks, and with the block in which it ends. -/
def fullBlocks : ℕ := src.length / geom.blockLen

def srcBlocks : ℕ :=
  geom.fullBlocks src + if src.length % geom.blockLen = 0 then 0 else 1

section OneLoop

variable {geom} (valid : geom.Valid) (fits : src.length ≤ geom.sliceLen)

include valid

theorem positions_eq (first last : ℕ) :
    blockPositions geom.blockLen (geom.blockLen * first) (geom.blockLen * last) =
      (List.range' first (last - first)).map (geom.blockLen * ·) := by
  have positive := valid.block_pos
  have count : (geom.blockLen * last - geom.blockLen * first + geom.blockLen - 1) /
      geom.blockLen = last - first := by
    rw [← Nat.mul_sub, Nat.add_sub_assoc positive, Nat.mul_add_div positive,
      Nat.div_eq_of_lt (by omega), Nat.add_zero]
  rw [blockPositions, count]
  apply List.ext_getElem
  · simp only [List.length_range', List.length_map]
  · intro index _ _
    simp only [List.getElem_range', List.getElem_map]
    ring

theorem positionBehind_eq {first last : ℕ} (ordered : first ≤ last) :
    positionBehind geom.blockLen (geom.blockLen * first) (geom.blockLen * last) =
      geom.blockLen * last := by
  have positive := valid.block_pos
  have count : (geom.blockLen * last - geom.blockLen * first + geom.blockLen - 1) /
      geom.blockLen = last - first := by
    rw [← Nat.mul_sub, Nat.add_sub_assoc positive, Nat.mul_add_div positive,
      Nat.div_eq_of_lt (by omega), Nat.add_zero]
  rw [positionBehind, count, Nat.mul_comm _ geom.blockLen, ← Nat.mul_add]
  congr 1
  omega

/-- A loop over positions is a loop over blocks. -/
theorem foldlM_positions {State : Type} (body : State → ℕ → Except State State) (first last : ℕ)
    (state : State) :
    (blockPositions geom.blockLen (geom.blockLen * first)
        (geom.blockLen * last)).foldlM body state =
      (List.range' first (last - first)).foldlM
        (fun state block => body state (geom.blockLen * block)) state := by
  rw [positions_eq valid, List.foldlM_map]

theorem dataChunkLen_eq : geom.dataChunkLen = geom.blockLen * geom.dataBlocks :=
  (dataBlocks_cases valid.blocked).1

/-- The chunk in which the input ends, and where. -/
theorem src_split :
    src.length / geom.dataChunkLen = geom.fullBlocks src / geom.dataBlocks ∧
      src.length % geom.dataChunkLen =
        geom.blockLen * (geom.fullBlocks src % geom.dataBlocks) +
          src.length % geom.blockLen := by
  rw [dataChunkLen_eq valid]
  constructor
  · exact (Nat.div_div_eq_div_mul _ _ _).symm
  · rw [Nat.mod_mul, Nat.add_comm]
    rfl

omit valid in
theorem src_blocks :
    src.length = geom.blockLen * geom.fullBlocks src + src.length % geom.blockLen :=
  (Nat.div_add_mod src.length geom.blockLen).symm

theorem fullBlock_iff (block : ℕ) :
    geom.FullBlock src block ↔ block < geom.fullBlocks src := by
  rw [FullBlock, fullBlocks, Nat.lt_iff_add_one_le, Nat.le_div_iff_mul_le valid.block_pos,
    Nat.mul_comm]

theorem dataBlock_iff (block : ℕ) :
    geom.DataBlock src block ↔ block < geom.srcBlocks src := by
  have whole := @src_blocks geom src
  have rest := Nat.mod_lt src.length valid.block_pos
  rw [DataBlock, srcBlocks]
  constructor
  · intro less
    by_contra far
    have more : geom.fullBlocks src ≤ block := by omega
    have bytes := Nat.mul_le_mul_left geom.blockLen more
    split at far
    · omega
    · have next : geom.fullBlocks src + 1 ≤ block := by omega
      have bytes := Nat.mul_le_mul_left geom.blockLen next
      rw [Nat.mul_succ] at bytes
      omega
  · intro less
    split at less
    · have next : block + 1 ≤ geom.fullBlocks src := by omega
      have bytes := Nat.mul_le_mul_left geom.blockLen next
      rw [Nat.mul_succ] at bytes
      have positive := valid.block_pos
      omega
    · have next : block ≤ geom.fullBlocks src := by omega
      have bytes := Nat.mul_le_mul_left geom.blockLen next
      omega

include fits

omit valid in
theorem fullBlocks_le : geom.fullBlocks src ≤ geom.sliceBlocks :=
  Nat.div_le_div_right fits

theorem srcBlocks_le : geom.srcBlocks src ≤ geom.sliceBlocks := by
  have slice := sliceBlocks_mul valid.blocked
  have whole := @src_blocks geom src
  by_contra more
  have data : geom.DataBlock src geom.sliceBlocks :=
    (dataBlock_iff src valid _).mpr (not_le.mp more)
  rw [DataBlock, slice] at data
  omega

theorem chunks_small :
    src.length / geom.dataChunkLen % 2 ^ 32 = geom.fullBlocks src / geom.dataBlocks := by
  rw [← (src_split src valid).1]
  apply Nat.mod_eq_of_lt
  exact (Nat.div_le_div_right fits).trans_lt valid.chunks_small

omit fits in
theorem copyBlock_eq {block : ℕ} (full : block < geom.fullBlocks src) (state : PrepareState) :
    geom.copyBlock transform check (geom.slot inputNum block)
        (slice src (geom.blockLen * block) (geom.blockLen * block + geom.blockLen))
        state =
      geom.writeBlock transform check src inputNum state block := by
  have holds := (fullBlock_iff src valid block).mpr full
  simp only [copyBlock, writeBlock, afterBlock, packedBlock, checkBlock, if_pos holds, srcBlock]

omit fits in
theorem clearBlock_eq {block : ℕ} (behind : geom.srcBlocks src ≤ block) (state : PrepareState) :
    geom.clearBlock (geom.slot inputNum block) state =
      geom.writeBlock transform check src inputNum state block := by
  have noData : ¬ geom.DataBlock src block := by
    rw [dataBlock_iff src valid]
    omega
  have notFull : ¬ geom.FullBlock src block := by
    rw [fullBlock_iff src valid]
    simp only [srcBlocks] at behind
    omega
  simp only [clearBlock, writeBlock, afterBlock, packedBlock, checkBlock, if_neg notFull,
    if_neg noData, ite_self]

/-- The chunks that the input fills, as one loop. -/
theorem copyFullChunks_eq (chunk position : ℕ) (inside : position ≤ geom.dataBlocks)
    (state : PrepareState) :
    geom.copyFullChunks transform check src inputNum chunk (geom.blockLen * position)
        state =
      (List.range' (chunk * geom.dataBlocks + position)
          (geom.fullBlocks src / geom.dataBlocks * geom.dataBlocks -
            (chunk * geom.dataBlocks + position))).foldlM
        (geom.writeBlock transform check src inputNum) state := by
  have positive := dataBlocks_pos valid.blocked
  rw [← foldlM_chunks _ _ _ _ _ inside]
  simp only [copyFullChunks, chunks_small src valid fits]
  apply foldlM_congr
  intro current member state
  have early : current < geom.fullBlocks src / geom.dataBlocks := by
    rw [List.mem_range'_1] at member
    omega
  have start : (if current = chunk then geom.blockLen * position else 0) =
      geom.blockLen * if current = chunk then position else 0 := by
    split
    · rfl
    · rfl
  rw [start, dataChunkLen_eq valid, foldlM_positions valid]
  apply foldlM_congr
  intro block member state
  have room : block < geom.dataBlocks := by
    rw [List.mem_range'_1] at member
    omega
  have next := Nat.mul_le_mul_right geom.dataBlocks early
  have whole := Nat.div_mul_le_self (geom.fullBlocks src) geom.dataBlocks
  rw [Nat.succ_mul] at next
  have full : current * geom.dataBlocks + block < geom.fullBlocks src := by omega
  have slices := fullBlocks_le src fits
  have address := data_address valid.blocked inputNum current room (by omega)
  rw [← fullChunkLen_eq valid.blocked (early.trans_le (Nat.div_le_div_right slices))] at address
  have bytes : geom.blockLen * geom.dataBlocks * current + geom.blockLen * block =
      geom.blockLen * (current * geom.dataBlocks + block) := by ring
  rw [address, bytes, copyBlock_eq transform check src inputNum valid full]

/-- Where the chunk ends in which the input ends. -/
def finalChunkEnd (geom : PackedGeometry) (src : Buffer) : ℕ :=
  min geom.sliceBlocks
    ((geom.fullBlocks src / geom.dataBlocks + 1) * geom.dataBlocks)

omit fits in
theorem copyRest_eq (rest : src.length % geom.blockLen ≠ 0) (state : PrepareState) :
    geom.copyRest transform check (geom.slot inputNum (geom.fullBlocks src))
        (slice src (geom.blockLen * geom.fullBlocks src) src.length) state =
      geom.writeBlock transform check src inputNum state (geom.fullBlocks src) := by
  have notFull : ¬ geom.FullBlock src (geom.fullBlocks src) := by
    rw [fullBlock_iff src valid]
    exact lt_irrefl _
  have data : geom.DataBlock src (geom.fullBlocks src) := by
    rw [dataBlock_iff src valid, srcBlocks, if_neg rest]
    exact Nat.lt_succ_self _
  have whole := @src_blocks geom src
  have less := Nat.mod_lt src.length valid.block_pos
  have bytes : slice src (geom.blockLen * geom.fullBlocks src) src.length =
      geom.srcBlock src (geom.fullBlocks src) := by
    rw [srcBlock, slice, slice, List.take_of_length_le, List.take_of_length_le]
    · rw [List.length_drop]
      omega
    · rw [List.length_drop]
  simp only [copyRest, writeBlock, afterBlock, packedBlock, checkBlock, if_neg notFull,
    if_pos data, bytes]

omit fits in
/-- An input that ends inside a chunk reaches beyond the chunks before it, and no further. -/
theorem src_in_chunk (inside : src.length % geom.dataChunkLen ≠ 0) :
    geom.blockLen * (geom.fullBlocks src / geom.dataBlocks * geom.dataBlocks) <
        src.length ∧
      src.length < geom.blockLen *
        ((geom.fullBlocks src / geom.dataBlocks + 1) * geom.dataBlocks) := by
  have positive := Nat.mul_pos valid.block_pos (dataBlocks_pos valid.blocked)
  rw [← dataChunkLen_eq valid] at positive
  have split := Nat.div_add_mod' src.length geom.dataChunkLen
  have rest := Nat.mod_lt src.length positive
  rw [(src_split src valid).1] at split
  have before : geom.fullBlocks src / geom.dataBlocks * geom.dataChunkLen =
      geom.blockLen *
        (geom.fullBlocks src / geom.dataBlocks * geom.dataBlocks) := by
    rw [dataChunkLen_eq valid]
    ring
  have next : geom.blockLen *
      ((geom.fullBlocks src / geom.dataBlocks + 1) * geom.dataBlocks) =
      geom.fullBlocks src / geom.dataBlocks * geom.dataChunkLen +
        geom.dataChunkLen := by
    rw [dataChunkLen_eq valid]
    ring
  omega

/-- The length of the chunk in which the input ends, without its checksum. -/
theorem finalChunkLens_fst (inside : src.length % geom.dataChunkLen ≠ 0) :
    (geom.finalChunkLens src).1 = geom.blockLen *
      (finalChunkEnd geom src -
        geom.fullBlocks src / geom.dataBlocks * geom.dataBlocks) := by
  have positive := dataBlocks_pos valid.blocked
  obtain ⟨behind, before⟩ := src_in_chunk src valid inside
  have below : geom.fullBlocks src / geom.dataBlocks ≤
      geom.fullChunks := Nat.div_le_div_right (fullBlocks_le src fits)
  have bytes : geom.sliceLen / geom.dataChunkLen * geom.dataChunkLen =
      geom.blockLen * (geom.fullChunks * geom.dataBlocks) := by
    rw [fullChunks_eq valid.blocked, dataChunkLen_eq valid]
    ring
  have own := geom.fullChunks_add
  have rest := Nat.mod_lt geom.sliceBlocks positive
  simp only [finalChunkLens, finalChunkEnd, bytes]
  by_cases last : geom.fullBlocks src / geom.dataBlocks =
      geom.fullChunks
  · rw [last] at behind ⊢
    rw [if_pos behind, ← sliceBlocks_mul valid.blocked, dataChunkLen_eq valid, Nat.mul_mod_mul_left,
      Nat.min_eq_left (by rw [Nat.succ_mul]; omega)]
    congr 1
    omega
  · have next := Nat.mul_le_mul_right geom.dataBlocks
      (show geom.fullBlocks src / geom.dataBlocks + 1 ≤
        geom.fullChunks by omega)
    have far := Nat.mul_le_mul_left geom.blockLen next
    rw [if_neg (by omega), dataChunkLen_eq valid, Nat.min_eq_right (by omega), Nat.succ_mul,
      Nat.add_sub_cancel_left]

/-- The length of the chunk in which the input ends, with its checksum. -/
theorem finalChunkLens_snd (inside : src.length % geom.dataChunkLen ≠ 0) :
    (geom.finalChunkLens src).2 = geom.blockLen *
      geom.blocksIn (geom.fullBlocks src / geom.dataBlocks) := by
  obtain ⟨behind, before⟩ := src_in_chunk src valid inside
  have bytes : geom.effectiveSliceLen / geom.chunkLen * geom.chunkLen =
      geom.blockLen * (geom.inputBlocks / geom.chunkBlocks * geom.chunkBlocks) := by
    rw [← inputBlocks_mul valid.blocked, ← chunkBlocks_mul valid.blocked, Nat.mul_div_mul_left _ _ valid.block_pos]
    ring
  have rest : geom.effectiveSliceLen % geom.chunkLen =
      geom.blockLen * (geom.inputBlocks % geom.chunkBlocks) := by
    rw [← inputBlocks_mul valid.blocked, ← chunkBlocks_mul valid.blocked, Nat.mul_mod_mul_left]
  have chunk := chunkBlocks_mul valid.blocked
  simp only [finalChunkLens, bytes, rest, blocksIn]
  obtain ⟨-, ⟨same, -⟩ | ⟨same, next, whole⟩⟩ := dataBlocks_cases valid.blocked
  · rw [same] at behind before ⊢
    by_cases early : geom.fullBlocks src / geom.chunkBlocks <
        geom.inputBlocks / geom.chunkBlocks
    · have next : geom.fullBlocks src / geom.chunkBlocks + 1 ≤
          geom.inputBlocks / geom.chunkBlocks := early
      have far := Nat.mul_le_mul_left geom.blockLen
        (Nat.mul_le_mul_right geom.chunkBlocks next)
      rw [if_neg (by omega), if_pos early, chunk]
    · have near := Nat.mul_le_mul_left geom.blockLen
        (Nat.mul_le_mul_right geom.chunkBlocks (not_lt.mp early))
      rw [if_pos (by omega), if_neg early]
  · have slice := sliceBlocks_mul valid.blocked
    have first : geom.fullBlocks src / geom.dataBlocks = 0 := by
      by_contra more
      have one := Nat.mul_le_mul_left geom.blockLen
        (Nat.mul_le_mul_right geom.dataBlocks (Nat.pos_of_ne_zero more))
      rw [Nat.succ_mul, Nat.zero_mul, Nat.zero_add, same] at one
      rw [same] at behind
      omega
    have single : geom.inputBlocks / geom.chunkBlocks = 1 := by
      rw [whole]
      exact Nat.div_self (chunkBlocks_pos valid.blocked)
    have less : src.length < geom.chunkLen := by
      rw [← chunk, next, Nat.mul_succ, slice]
      have positive := valid.block_pos
      omega
    rw [first, single, Nat.one_mul, chunk, if_neg (by omega), if_pos Nat.zero_lt_one, chunk]

theorem srcBlocks_le_end : geom.srcBlocks src ≤ finalChunkEnd geom src := by
  have own := Nat.div_add_mod' (geom.fullBlocks src) geom.dataBlocks
  have rest := Nat.mod_lt (geom.fullBlocks src) (dataBlocks_pos valid.blocked)
  apply Nat.le_min.mpr
  constructor
  · exact srcBlocks_le src valid fits
  · rw [srcBlocks, Nat.succ_mul]
    split
    · omega
    · omega

/-- The chunk in which the input ends, as one loop, with the checksum skipping what is cleared. -/
theorem copyFinalChunk_eq (inside : src.length % geom.dataChunkLen ≠ 0) {position : ℕ}
    (ordered : position ≤ geom.fullBlocks src % geom.dataBlocks) (state : PrepareState) :
    geom.copyFinalChunk transform check src inputNum (geom.blockLen * position) state =
      (List.range'
          (geom.fullBlocks src / geom.dataBlocks * geom.dataBlocks + position)
          (geom.srcBlocks src -
            (geom.fullBlocks src / geom.dataBlocks * geom.dataBlocks +
              position))).foldlM (geom.writeBlock transform check src inputNum) state >>=
        fun state =>
          (List.range' (geom.srcBlocks src)
              (finalChunkEnd geom src - geom.srcBlocks src)).foldlM
            (geom.writeBlock transform check src inputNum)
            (geom.skipCleared check
              (geom.blockLen * (finalChunkEnd geom src - geom.srcBlocks src)) state) := by
  have own := Nat.div_add_mod' (geom.fullBlocks src) geom.dataBlocks
  have room := Nat.mod_lt (geom.fullBlocks src) (dataBlocks_pos valid.blocked)
  have slices := srcBlocks_le src valid fits
  have less := Nat.mod_lt src.length valid.block_pos
  have places := fun block => @data_address geom valid.blocked inputNum
    (geom.fullBlocks src / geom.dataBlocks) block
  have remaining := (src_split src valid).2
  have rest : (geom.blockLen * (geom.fullBlocks src % geom.dataBlocks) +
      src.length % geom.blockLen) % geom.blockLen = src.length % geom.blockLen := by
    rw [Nat.mul_add_mod, Nat.mod_eq_of_lt less]
  have bytes : geom.dataChunkLen * (geom.fullBlocks src / geom.dataBlocks) =
      geom.blockLen * (geom.fullBlocks src / geom.dataBlocks * geom.dataBlocks) := by
    rw [dataChunkLen_eq valid]
    ring
  simp only [copyFinalChunk, chunks_small src valid fits, finalChunkLens_fst src valid fits inside,
    finalChunkLens_snd src valid fits inside, remaining, rest, Nat.add_sub_cancel_right,
    positionBehind_eq valid ordered, foldlM_positions valid, bytes, ← Nat.mul_add]
  have ends := srcBlocks_le_end src valid fits
  have chunkEnd : finalChunkEnd geom src ≤ geom.sliceBlocks ∧ finalChunkEnd geom src ≤
      geom.fullBlocks src / geom.dataBlocks * geom.dataBlocks + geom.dataBlocks := by
    rw [← Nat.succ_mul]
    exact Nat.le_min.mp le_rfl
  generalize geom.fullBlocks src / geom.dataBlocks * geom.dataBlocks = base at *
  generalize geom.inputBase inputNum (geom.blockLen *
      geom.blocksIn (geom.fullBlocks src / geom.dataBlocks)) +
    geom.chunkStride * (geom.fullBlocks src / geom.dataBlocks) = start at *
  have copies (state : PrepareState) :
      (List.range' position (geom.fullBlocks src % geom.dataBlocks - position)).foldlM
          (fun state block =>
            geom.copyBlock transform check
              (start + geom.blockLen * block * geom.interleaveBy inputNum)
              (slice src (geom.blockLen * (base + block))
                (geom.blockLen * (base + block) + geom.blockLen))
              state)
          state =
        (List.range' (base + position) (geom.fullBlocks src - (base + position))).foldlM
          (geom.writeBlock transform check src inputNum) state := by
    have shift := foldlM_shift (geom.writeBlock transform check src inputNum) base position
      (geom.fullBlocks src % geom.dataBlocks) state
    rw [own] at shift
    rw [← shift]
    apply foldlM_congr
    intro block member state
    rw [List.mem_range'_1] at member
    have full : base + block < geom.fullBlocks src := by omega
    rw [places block (by omega) (by simp only [srcBlocks] at slices; omega),
      copyBlock_eq transform check src inputNum valid full]
  have clears (next : ℕ) (reached : base + next = geom.srcBlocks src) (state : PrepareState) :
      (blockPositions geom.blockLen (geom.blockLen * next)
          (geom.blockLen * (finalChunkEnd geom src - base))).foldlM
          (fun state pos =>
            geom.clearBlock (start + pos * geom.interleaveBy inputNum) state)
          state =
        (List.range' (geom.srcBlocks src)
            (finalChunkEnd geom src - geom.srcBlocks src)).foldlM
          (geom.writeBlock transform check src inputNum) state := by
    have shift := foldlM_shift (geom.writeBlock transform check src inputNum) base next
      (finalChunkEnd geom src - base) state
    have last : base + (finalChunkEnd geom src - base) = finalChunkEnd geom src := by omega
    rw [reached, last] at shift
    rw [← shift, foldlM_positions valid]
    apply foldlM_congr
    intro block member state
    rw [List.mem_range'_1] at member
    rw [places block (by omega) (by omega),
      clearBlock_eq transform check src inputNum valid (by omega)]
  simp only [copies]
  by_cases whole : src.length % geom.blockLen = 0
  · have blocks : geom.srcBlocks src = geom.fullBlocks src := by
      rw [srcBlocks, if_pos whole, Nat.add_zero]
    have skipped : geom.blockLen * (finalChunkEnd geom src - base) -
        geom.blockLen * (geom.fullBlocks src % geom.dataBlocks) =
          geom.blockLen * (finalChunkEnd geom src - geom.srcBlocks src) := by
      rw [← Nat.mul_sub]
      congr 1
      omega
    simp only [whole, Nat.add_zero, gt_iff_lt, lt_irrefl, if_false, pure_bind, skipped,
      clears _ (own.trans blocks.symm)]
    rw [blocks]
  · have blocks : geom.srcBlocks src = geom.fullBlocks src + 1 := by
      rw [srcBlocks, if_neg whole]
    have more : geom.blockLen * (geom.fullBlocks src % geom.dataBlocks) +
        src.length % geom.blockLen >
          geom.blockLen * (geom.fullBlocks src % geom.dataBlocks) := by omega
    have length : geom.blockLen * base +
        (geom.blockLen * (geom.fullBlocks src % geom.dataBlocks) +
          src.length % geom.blockLen) = src.length := by
      rw [← Nat.add_assoc, ← Nat.mul_add, own]
      exact Nat.div_add_mod src.length geom.blockLen
    have skipped : geom.blockLen * (finalChunkEnd geom src - base) -
        geom.blockLen * (geom.fullBlocks src % geom.dataBlocks + 1) =
          geom.blockLen * (finalChunkEnd geom src - geom.srcBlocks src) := by
      rw [← Nat.mul_sub]
      congr 1
      omega
    have one := places _ room (by omega)
    rw [own] at one
    simp only [if_pos more, ← Nat.mul_succ, Nat.succ_eq_add_one, skipped, length, own, one,
      copyRest_eq transform check src inputNum valid whole,
      clears (geom.fullBlocks src % geom.dataBlocks + 1) (by omega)]
    rw [blocks, ← foldlM_range_succ _ _ (show base + position ≤ geom.fullBlocks src by omega),
      bind_assoc]

/-- Clear the blocks from one to the end of the slice. -/
def clearFrom (geom : PackedGeometry) (block : ℕ) (state : PrepareState) :
    Except PrepareState PrepareState :=
  if block < geom.sliceBlocks then
    (List.range' block (geom.sliceBlocks - block)).foldlM
      (geom.writeBlock transform check src inputNum)
      (geom.skipCleared check (geom.blockLen * (geom.sliceBlocks - block)) state)
  else .ok state

omit fits in
/-- The chunks behind the input, as one loop. -/
theorem clearChunks_eq (chunk : ℕ) (behind : geom.srcBlocks src ≤ chunk * geom.dataBlocks)
    (state : PrepareState) :
    geom.clearChunks check inputNum chunk 0 state =
      clearFrom transform check src inputNum geom (chunk * geom.dataBlocks) state := by
  have positive := dataBlocks_pos valid.blocked
  have slice := sliceBlocks_mul valid.blocked
  have own := geom.fullChunks_add
  have rest := Nat.mod_lt geom.sliceBlocks positive
  have chunks : geom.sliceLen / geom.dataChunkLen % 2 ^ 32 =
      geom.fullChunks := by
    rw [Nat.mod_eq_of_lt valid.chunks_small, fullChunks_eq valid.blocked]
  have bytes : chunk * geom.dataChunkLen =
      geom.blockLen * (chunk * geom.dataBlocks) := by
    rw [dataChunkLen_eq valid]
    ring
  have before : chunk * geom.dataChunkLen < geom.sliceLen ↔
      chunk * geom.dataBlocks < geom.sliceBlocks := by
    rw [bytes, ← slice]
    exact Nat.mul_lt_mul_left valid.block_pos
  simp only [clearChunks, clearFrom, before]
  split
  case isFalse => rfl
  case isTrue more =>
    have skipped : geom.sliceLen - chunk * geom.dataChunkLen =
        geom.blockLen * (geom.sliceBlocks - chunk * geom.dataBlocks) := by
      rw [bytes, ← slice, ← Nat.mul_sub]
    have reached : chunk ≤ geom.fullChunks :=
      (Nat.le_div_iff_mul_le positive).mpr more.le
    have fulls (state : PrepareState) :
        (List.range' chunk (geom.fullChunks - chunk)).foldlM
            (fun state current =>
              (blockPositions geom.blockLen 0 geom.dataChunkLen).foldlM
                (fun state pos =>
                  geom.clearBlock
                    (geom.inputBase inputNum geom.chunkLen +
                      geom.chunkStride * current + pos * geom.interleaveBy inputNum)
                    state)
                state)
            state =
          (List.range' (chunk * geom.dataBlocks)
              (geom.fullChunks * geom.dataBlocks -
                chunk * geom.dataBlocks)).foldlM
            (geom.writeBlock transform check src inputNum) state := by
      have flat := foldlM_chunks (geom.writeBlock transform check src inputNum)
        geom.dataBlocks chunk 0 geom.fullChunks (Nat.zero_le _)
        state
      simp only [Nat.add_zero, ite_self] at flat
      rw [← flat]
      apply foldlM_congr
      intro current member state
      rw [List.mem_range'_1] at member
      have positions := fun body : PrepareState → ℕ → Except PrepareState PrepareState =>
        foldlM_positions valid body 0
      simp only [Nat.mul_zero] at positions
      rw [dataChunkLen_eq valid, positions]
      apply foldlM_congr
      intro block member' state
      rw [List.mem_range'_1] at member'
      have early : current < geom.fullChunks := by omega
      have next := Nat.mul_le_mul_right geom.dataBlocks early
      have from_ := Nat.mul_le_mul_right geom.dataBlocks member.1
      rw [Nat.succ_mul] at next
      have address := data_address valid.blocked inputNum current
        (show block < geom.dataBlocks by omega) (by omega)
      rw [← fullChunkLen_eq valid.blocked early] at address
      rw [address, clearBlock_eq transform check src inputNum valid (by omega)]
    have tail (state : PrepareState) :
        (blockPositions geom.blockLen 0 (geom.sliceLen % geom.dataChunkLen)).foldlM
            (fun state pos =>
              geom.clearBlock
                (geom.inputBase inputNum geom.effectiveLastChunkLen +
                  geom.chunkStride * geom.fullChunks +
                  pos * geom.interleaveBy inputNum)
                state)
            state =
          (List.range' (geom.fullChunks * geom.dataBlocks)
              (geom.sliceBlocks -
                geom.fullChunks * geom.dataBlocks)).foldlM
            (geom.writeBlock transform check src inputNum) state := by
      have shift := foldlM_shift (geom.writeBlock transform check src inputNum)
        (geom.fullChunks * geom.dataBlocks) 0
        (geom.sliceBlocks % geom.dataBlocks) state
      have remaining : geom.sliceLen % geom.dataChunkLen =
          geom.blockLen * (geom.sliceBlocks % geom.dataBlocks) := by
        rw [dataChunkLen_eq valid, ← slice, Nat.mul_mod_mul_left]
      have positions := fun body : PrepareState → ℕ → Except PrepareState PrepareState =>
        foldlM_positions valid body 0
      simp only [Nat.mul_zero] at positions
      rw [Nat.add_zero, own] at shift
      rw [← shift, remaining, positions]
      apply foldlM_congr
      intro block member state
      rw [List.mem_range'_1] at member
      have address := data_address valid.blocked inputNum
        geom.fullChunks (show block < geom.dataBlocks by omega)
        (by omega)
      have from_ := Nat.mul_le_mul_right geom.dataBlocks reached
      rw [← lastChunkLen_eq valid.blocked (by omega)] at address
      rw [address, clearBlock_eq transform check src inputNum valid (by omega)]
    simp only [chunks, skipped, ite_self, fulls, tail]
    exact foldlM_range_append _ _ (Nat.mul_le_mul_right geom.dataBlocks reached)
      (Nat.div_mul_le_self _ _)

/-- The function, as three loops over blocks: those with data, those that are cleared in the chunk
in which the input ends, and those in the chunks behind it. -/
theorem prepareBlocks_eq {start : ℕ} (ordered : start ≤ geom.fullBlocks src)
    (state : PrepareState) :
    geom.prepareBlocks transform check src inputNum (geom.blockLen * start) state =
      (List.range' start (geom.srcBlocks src - start)).foldlM
          (geom.writeBlock transform check src inputNum) state >>= fun state =>
        if src.length % geom.dataChunkLen ≠ 0 then
          (List.range' (geom.srcBlocks src)
              (finalChunkEnd geom src - geom.srcBlocks src)).foldlM
            (geom.writeBlock transform check src inputNum)
            (geom.skipCleared check
              (geom.blockLen * (finalChunkEnd geom src - geom.srcBlocks src)) state) >>=
            clearFrom transform check src inputNum geom (finalChunkEnd geom src)
        else clearFrom transform check src inputNum geom (geom.srcBlocks src) state := by
  have positive := dataBlocks_pos valid.blocked
  have own := Nat.div_add_mod' start geom.dataBlocks
  have room := Nat.mod_lt start positive
  have srcOwn := Nat.div_add_mod' (geom.fullBlocks src) geom.dataBlocks
  have srcRoom := Nat.mod_lt (geom.fullBlocks src) positive
  have chunkOrder : start / geom.dataBlocks ≤ geom.fullBlocks src / geom.dataBlocks :=
    Nat.div_le_div_right ordered
  have chunk : geom.blockLen * start / geom.dataChunkLen % 2 ^ 32 =
      start / geom.dataBlocks := by
    rw [dataChunkLen_eq valid, Nat.mul_div_mul_left _ _ valid.block_pos]
    apply Nat.mod_eq_of_lt
    apply chunkOrder.trans_lt
    rw [← (src_split src valid).1]
    exact (Nat.div_le_div_right fits).trans_lt valid.chunks_small
  have pos : geom.blockLen * start % geom.dataChunkLen =
      geom.blockLen * (start % geom.dataBlocks) := by
    rw [dataChunkLen_eq valid, Nat.mul_mod_mul_left]
  have blocks : geom.fullBlocks src ≤ geom.srcBlocks src := Nat.le_add_right _ _
  simp only [prepareBlocks, chunk, pos, chunks_small src valid fits, max_eq_right chunkOrder,
    copyFullChunks_eq transform check src inputNum valid fits _ _ room.le, own, and_true]
  have entered : start / geom.dataBlocks < geom.fullBlocks src / geom.dataBlocks →
      start ≤ geom.fullBlocks src / geom.dataBlocks * geom.dataBlocks := by
    intro early
    have next := Nat.mul_le_mul_right geom.dataBlocks early
    rw [Nat.succ_mul] at next
    omega
  by_cases inside : src.length % geom.dataChunkLen ≠ 0
  · have behind := srcBlocks_le_end src valid fits
    have last (state : PrepareState) :
        geom.clearChunks check inputNum
            (geom.fullBlocks src / geom.dataBlocks + 1) 0 state =
          clearFrom transform check src inputNum geom (finalChunkEnd geom src) state := by
      have reached : geom.srcBlocks src ≤
          (geom.fullBlocks src / geom.dataBlocks + 1) * geom.dataBlocks :=
        behind.trans (Nat.min_le_right _ _)
      rw [clearChunks_eq transform check src inputNum valid _ reached]
      rcases Nat.le_total ((geom.fullBlocks src / geom.dataBlocks + 1) * geom.dataBlocks)
        geom.sliceBlocks with whole | cut
      · rw [finalChunkEnd, Nat.min_eq_right whole]
      · rw [finalChunkEnd, Nat.min_eq_left cut, clearFrom, clearFrom, if_neg (by omega),
          if_neg (by omega)]
    simp only [if_pos inside, last]
    by_cases early : start / geom.dataBlocks < geom.fullBlocks src / geom.dataBlocks
    · have final := copyFinalChunk_eq transform check src inputNum valid fits inside (Nat.zero_le _)
      simp only [Nat.mul_zero, Nat.add_zero] at final
      simp only [if_pos early, final, ← foldlM_range_append _ state (entered early)
        (show geom.fullBlocks src / geom.dataBlocks * geom.dataBlocks ≤
          geom.srcBlocks src by omega), bind_assoc]
    · have same : start / geom.dataBlocks =
          geom.fullBlocks src / geom.dataBlocks := by omega
      have offset : start % geom.dataBlocks ≤ geom.fullBlocks src % geom.dataBlocks := by
        rw [same] at own
        omega
      have final := copyFinalChunk_eq transform check src inputNum valid fits inside offset
      rw [← same, own] at final
      have none : start / geom.dataBlocks * geom.dataBlocks - start = 0 := by omega
      simp only [← same, lt_irrefl, if_false, final, none, List.range'_zero, List.foldlM_nil,
        pure_bind, bind_assoc]
  · have split := (src_split src valid).2
    have whole : geom.fullBlocks src % geom.dataBlocks = 0 ∧
        src.length % geom.blockLen = 0 := by
      rw [not_not.mp inside] at split
      have zero := Nat.eq_zero_of_add_eq_zero split.symm
      constructor
      · exact (Nat.mul_eq_zero.mp zero.1).resolve_left valid.block_pos.ne'
      · exact zero.2
    have count : geom.srcBlocks src = geom.fullBlocks src := by
      rw [srcBlocks, if_pos whole.2, Nat.add_zero]
    have exact : geom.fullBlocks src / geom.dataBlocks * geom.dataBlocks =
        geom.srcBlocks src := by omega
    have zero : (if start / geom.dataBlocks < geom.fullBlocks src / geom.dataBlocks then 0
        else geom.blockLen * (start % geom.dataBlocks)) = 0 := by
      split
      case isTrue => rfl
      case isFalse late =>
        have same : start / geom.dataBlocks =
            geom.fullBlocks src / geom.dataBlocks := by omega
        have none : start % geom.dataBlocks = 0 := by
          rw [same] at own
          omega
        rw [none, Nat.mul_zero]
    simp only [if_neg inside, exact, zero, clearChunks_eq transform check src inputNum valid _
      exact.ge]

end OneLoop

/-! ## What a call leaves behind -/

/-- The state behind the blocks from `start` to `stop`. -/
def afterBlocks (start stop : ℕ) (state : PrepareState) : PrepareState :=
  (List.range' start (stop - start)).foldl (geom.afterBlock transform check src inputNum) state

/-- The buffer with these blocks written. -/
def writeBlocks (start stop : ℕ) (dst : PackedBuffer) : PackedBuffer :=
  (List.range' start (stop - start)).foldl
    (fun dst block => Function.update dst (geom.slot inputNum block)
      (geom.packedBlock transform src block))
    dst

/-- The checksum with these blocks added. -/
def checkBlocks (start stop : ℕ) (checksum : Buffer) : Buffer :=
  (List.range' start (stop - start)).foldl
    (fun checksum block => geom.checkBlock check src block checksum) checksum

/-- The checksum behind the slice: the blocks behind the input are skipped in two steps. -/
def skipTail (checksum : Buffer) : Buffer :=
  let behind :=
    if src.length % geom.dataChunkLen ≠ 0 then finalChunkEnd geom src
    else geom.srcBlocks src
  let checksum :=
    if src.length % geom.dataChunkLen ≠ 0 then
      check.checksumExp checksum ((behind - geom.srcBlocks src) % 65535)
    else checksum
  if behind < geom.sliceBlocks then
    check.checksumExp checksum ((geom.sliceBlocks - behind) % 65535)
  else checksum

/-- The checksum behind a slice that has been completed. -/
def completed (geom : PackedGeometry) (check : ChecksumTransform) (src : Buffer)
    (checksum : Buffer) : Buffer :=
  if geom.hasChecksum then geom.skipTail check src checksum else checksum

section Outcomes

variable {geom}

theorem afterBlocks_eq (start stop : ℕ) (state : PrepareState) :
    geom.afterBlocks transform check src inputNum start stop state =
      { dst := geom.writeBlocks transform src inputNum start stop state.dst
        checksum := geom.checkBlocks check src start stop state.checksum
        partLeft := state.partLeft - geom.blockLen * (stop - start) } := by
  simp only [afterBlocks, writeBlocks, checkBlocks]
  generalize stop - start = count
  induction count generalizing start state with
  | zero => rfl
  | succ count ih =>
    simp only [List.range'_succ, List.foldl_cons, ih, afterBlock, Nat.mul_succ,
      Nat.sub_sub, Nat.add_comm geom.blockLen]

/-- A part that is long enough is written to its end. -/
theorem foldlM_writeBlock_ok (valid : geom.Valid) (start stop : ℕ) (state : PrepareState)
    (long : geom.blockLen * (stop - start) ≤ state.partLeft) :
    (List.range' start (stop - start)).foldlM (geom.writeBlock transform check src inputNum)
        state =
      .ok (geom.afterBlocks transform check src inputNum start stop state) := by
  simp only [afterBlocks]
  generalize stop - start = count at long
  induction count generalizing start state with
  | zero => rfl
  | succ count ih =>
    have positive := valid.block_pos
    rw [Nat.mul_succ] at long
    have more : state.partLeft ≠ 0 := by omega
    rw [List.range'_succ, List.foldlM_cons, List.foldl_cons, writeBlock, unlessDone, if_neg more]
    apply ih
    simp only [afterBlock]
    omega

/-- A part that ends before is written as far as it goes, and the function returns. -/
theorem foldlM_writeBlock_error (valid : geom.Valid) (start stop count : ℕ)
    (state : PrepareState) (short : start + count < stop)
    (part : state.partLeft = geom.blockLen * count) :
    (List.range' start (stop - start)).foldlM (geom.writeBlock transform check src inputNum)
        state =
      .error (geom.afterBlocks transform check src inputNum start (start + count) state) := by
  have first := foldlM_range_append (geom.writeBlock transform check src inputNum) state
    (Nat.le_add_right start count) short.le
  have written := foldlM_writeBlock_ok transform check src inputNum valid start (start + count) state
    (by rw [Nat.add_sub_cancel_left, part])
  have more : stop - (start + count) = stop - (start + count) - 1 + 1 := by omega
  rw [← first, written, ok_bind, more, List.range'_succ, List.foldlM_cons, writeBlock, unlessDone,
    if_pos]
  · rfl
  · rw [afterBlocks_eq, Nat.add_sub_cancel_left, part, Nat.sub_self]

/-- Cleared blocks do not change the checksum. -/
theorem checkBlocks_cleared (valid : geom.Valid) (start stop : ℕ)
    (behind : geom.srcBlocks src ≤ start) (checksum : Buffer) :
    geom.checkBlocks check src start stop checksum = checksum := by
  simp only [checkBlocks]
  generalize stop - start = count
  induction count generalizing start with
  | zero => rfl
  | succ count ih =>
    have noData : ¬ geom.DataBlock src start := by
      rw [dataBlock_iff src valid]
      omega
    have notFull : ¬ geom.FullBlock src start := by
      rw [fullBlock_iff src valid]
      simp only [srcBlocks] at behind
      omega
    rw [List.range'_succ, List.foldl_cons, checkBlock, if_neg notFull, if_neg noData, ite_self]
    exact ih (start + 1) (by omega)

theorem skipCleared_eq (valid : geom.Valid) (count : ℕ) (state : PrepareState)
    (long : geom.blockLen * count ≤ state.partLeft) :
    geom.skipCleared check (geom.blockLen * count) state =
      { state with
        checksum := if geom.hasChecksum then check.checksumExp state.checksum (count % 65535)
          else state.checksum } := by
  rw [skipCleared, Nat.min_eq_left long, Nat.mul_div_cancel_left _ valid.block_pos]
  split
  · rfl
  · rfl

/-- Blocks that are cleared in one loop, behind the skip of the checksum. -/
theorem clear_eq (valid : geom.Valid) {start stop : ℕ} (behind : geom.srcBlocks src ≤ start)
    (state : PrepareState) (long : geom.blockLen * (stop - start) ≤ state.partLeft) :
    (List.range' start (stop - start)).foldlM (geom.writeBlock transform check src inputNum)
        (geom.skipCleared check (geom.blockLen * (stop - start)) state) =
      .ok
        { dst := geom.writeBlocks transform src inputNum start stop state.dst
          checksum :=
            if geom.hasChecksum then
              check.checksumExp state.checksum ((stop - start) % 65535)
            else state.checksum
          partLeft := state.partLeft - geom.blockLen * (stop - start) } := by
  rw [skipCleared_eq check valid _ _ long, foldlM_writeBlock_ok transform check src inputNum valid,
    afterBlocks_eq]
  · simp only [checkBlocks_cleared check src valid start stop behind]
  · exact long

theorem writeBlocks_append {start middle stop : ℕ} (first : start ≤ middle) (second : middle ≤ stop)
    (dst : PackedBuffer) :
    geom.writeBlocks transform src inputNum middle stop
        (geom.writeBlocks transform src inputNum start middle dst) =
      geom.writeBlocks transform src inputNum start stop dst := by
  simp only [writeBlocks, range_split first second, List.foldl_append]

theorem checkBlocks_append {start middle stop : ℕ} (first : start ≤ middle) (second : middle ≤ stop)
    (checksum : Buffer) :
    geom.checkBlocks check src middle stop (geom.checkBlocks check src start middle checksum) =
      geom.checkBlocks check src start stop checksum := by
  simp only [checkBlocks, range_split first second, List.foldl_append]

/-- A part that ends before the input writes its blocks. -/
theorem prepare_part (valid : geom.Valid) (fits : src.length ≤ geom.sliceLen)
    (dst : PackedBuffer) (start count : ℕ)
    (before : geom.blockLen * (start + count) < src.length) (checksum : Buffer) :
    geom.gf16_prepare_packed transform check src inputNum dst (geom.blockLen * start)
        (geom.blockLen * count) checksum =
      (geom.writeBlocks transform src inputNum start (start + count) dst,
        geom.checkBlocks check src start (start + count) checksum) := by
  have data := (dataBlock_iff src valid (start + count)).mp before
  have whole := @src_blocks geom src
  have less := Nat.mod_lt src.length valid.block_pos
  have started : start ≤ geom.fullBlocks src := by
    simp only [srcBlocks] at data
    split at data
    · omega
    · omega
  have part : geom.blockLen * start + geom.blockLen * count ≠ src.length := by
    rw [← Nat.mul_add]
    exact before.ne
  rw [gf16_prepare_packed, if_neg part, prepareBlocks_eq transform check src inputNum valid fits started,
    foldlM_writeBlock_error transform check src inputNum valid start _ count _ data rfl, error_bind,
    afterBlocks_eq]

theorem clearFrom_eq (valid : geom.Valid) {start : ℕ}
    (behind : geom.srcBlocks src ≤ start) (inside : start ≤ geom.sliceBlocks)
    (state : PrepareState)
    (long : geom.blockLen * (geom.sliceBlocks - start) ≤ state.partLeft) :
    ∃ partLeft, clearFrom transform check src inputNum geom start state =
      .ok
        { dst := geom.writeBlocks transform src inputNum start geom.sliceBlocks state.dst
          checksum :=
            if geom.hasChecksum then
              if start < geom.sliceBlocks then
                check.checksumExp state.checksum ((geom.sliceBlocks - start) % 65535)
              else state.checksum
            else state.checksum
          partLeft := partLeft } := by
  rw [clearFrom]
  split
  case isTrue more =>
    rw [clear_eq transform check src inputNum valid behind state long]
    exact ⟨_, rfl⟩
  case isFalse done =>
    have none : geom.sliceBlocks - start = 0 := by omega
    refine ⟨state.partLeft, ?_⟩
    rw [writeBlocks, none, ite_self]
    rfl

/-- The blocks behind the input, in the chunk in which it ends and in the chunks behind that. -/
theorem clearTail_eq (valid : geom.Valid) (fits : src.length ≤ geom.sliceLen)
    (state : PrepareState)
    (long : geom.blockLen * (geom.sliceBlocks - geom.srcBlocks src) ≤ state.partLeft) :
    ∃ partLeft,
      (if src.length % geom.dataChunkLen ≠ 0 then
        (List.range' (geom.srcBlocks src)
            (finalChunkEnd geom src - geom.srcBlocks src)).foldlM
          (geom.writeBlock transform check src inputNum)
          (geom.skipCleared check
            (geom.blockLen * (finalChunkEnd geom src - geom.srcBlocks src)) state) >>=
          clearFrom transform check src inputNum geom (finalChunkEnd geom src)
      else clearFrom transform check src inputNum geom (geom.srcBlocks src) state) =
      .ok
        { dst := geom.writeBlocks transform src inputNum (geom.srcBlocks src)
            geom.sliceBlocks state.dst
          checksum := completed geom check src state.checksum
          partLeft := partLeft } := by
  have blocks := srcBlocks_le src valid fits
  have ends := srcBlocks_le_end src valid fits
  have last : finalChunkEnd geom src ≤ geom.sliceBlocks := Nat.min_le_left _ _
  by_cases inside : src.length % geom.dataChunkLen ≠ 0
  · have split : geom.blockLen * (finalChunkEnd geom src - geom.srcBlocks src) +
        geom.blockLen * (geom.sliceBlocks - finalChunkEnd geom src) =
          geom.blockLen * (geom.sliceBlocks - geom.srcBlocks src) := by
      rw [← Nat.mul_add]
      congr 1
      omega
    rw [if_pos inside, clear_eq transform check src inputNum valid le_rfl state (by omega), ok_bind]
    obtain ⟨partLeft, cleared⟩ := clearFrom_eq transform check src inputNum valid ends last
      { dst := geom.writeBlocks transform src inputNum (geom.srcBlocks src)
          (finalChunkEnd geom src) state.dst
        checksum :=
          if geom.hasChecksum then
            check.checksumExp state.checksum
              ((finalChunkEnd geom src - geom.srcBlocks src) % 65535)
          else state.checksum
        partLeft := state.partLeft -
          geom.blockLen * (finalChunkEnd geom src - geom.srcBlocks src) }
      (by dsimp only; omega)
    refine ⟨partLeft, cleared.trans ?_⟩
    simp only [writeBlocks_append transform src inputNum ends last, completed, skipTail,
      if_pos inside]
    cases geom.hasChecksum with
    | true => simp only [if_true]
    | false => simp only [Bool.false_eq_true, if_false]
  · obtain ⟨partLeft, cleared⟩ := clearFrom_eq transform check src inputNum valid le_rfl blocks state
      long
    refine ⟨partLeft, ?_⟩
    rw [if_neg inside, cleared]
    simp only [completed, skipTail, if_neg inside]

/-- A part that ends with the input writes the rest of the slice and its checksum. -/
theorem prepare_rest (valid : geom.Valid) (fits : src.length ≤ geom.sliceLen)
    (dst : PackedBuffer) (start partLen : ℕ)
    (completes : geom.blockLen * start + partLen = src.length) (checksum : Buffer) :
    geom.gf16_prepare_packed transform check src inputNum dst (geom.blockLen * start) partLen
        checksum =
      let dst := geom.writeBlocks transform src inputNum start geom.sliceBlocks dst
      let checksum := completed geom check src
        (geom.checkBlocks check src start (geom.srcBlocks src) checksum)
      (if geom.hasChecksum then
          Function.update dst (geom.gf16_checksum_ptr inputNum) (check.prepareChecksum checksum)
        else dst,
        checksum) := by
  have whole := @src_blocks geom src
  have less := Nat.mod_lt src.length valid.block_pos
  have positive := valid.block_pos
  have started : start ≤ geom.fullBlocks src := by
    by_contra late
    have next := Nat.mul_le_mul_left geom.blockLen (not_le.mp late)
    rw [Nat.mul_succ] at next
    omega
  have slice := sliceBlocks_mul valid.blocked
  have small := valid.slice_small
  have blocks := srcBlocks_le src valid fits
  have counted : start ≤ geom.srcBlocks src := started.trans (Nat.le_add_right _ _)
  have bytes (first last : ℕ) (ordered : first ≤ last) :
      geom.blockLen * (last - first) + geom.blockLen * first =
        geom.blockLen * last := by
    rw [← Nat.mul_add, Nat.sub_add_cancel ordered]
  have data := bytes _ _ counted
  have dataSlice := Nat.mul_le_mul_left geom.blockLen blocks
  rw [gf16_prepare_packed, if_pos completes,
    prepareBlocks_eq transform check src inputNum valid fits started,
    foldlM_writeBlock_ok transform check src inputNum valid _ _ _ (by simp only [SIZE_MAX]; omega),
    ok_bind, afterBlocks_eq]
  obtain ⟨partLeft, cleared⟩ := clearTail_eq transform check src inputNum valid fits
    { dst := geom.writeBlocks transform src inputNum start (geom.srcBlocks src) dst
      checksum := geom.checkBlocks check src start (geom.srcBlocks src) checksum
      partLeft := SIZE_MAX - geom.blockLen * (geom.srcBlocks src - start) }
    (by have rest := bytes _ _ blocks; simp only [SIZE_MAX]; omega)
  rw [cleared]
  simp only [writeBlocks_append transform src inputNum counted blocks, completes, and_true]
  split
  · rfl
  · rfl

end Outcomes

end PackedGeometry

end Par3
