import Par3.FinishPacked

/-!
# The blocks that unpacking reads

Unpacking reads the blocks of a slice in order, and of the block with which the slice ends the
bytes that belong to the slice.
-/
namespace Par3

namespace PackedGeometry

open FallibleLoops

variable (geom : PackedGeometry) (transform : BlockTransform) (check : ChecksumTransform)
  (src : PackedBuffer) (outputNum : ℕ)

/-- Copy a block back, or what the slice has of it. -/
def finishBlock (state : FinishState) (block : ℕ) : Except FinishState FinishState :=
  let packed := src (geom.aligned.slot outputNum block)
  if geom.blockLen * (block + 1) ≤ geom.sliceLen then
    geom.finishBlockAt transform check (geom.blockLen * block) packed state
  else
    unlessFinished state
      (geom.finishRestAt transform check (geom.blockLen * block)
        (geom.sliceLen - geom.blockLen * block) packed state)

/-- The blocks of the slice that are whole. -/
def wholeBlocks : ℕ := geom.sliceLen / geom.blockLen

section OneLoop

variable {geom} (valid : geom.aligned.Valid)

include valid

theorem aligned_blocks :
    geom.aligned.sliceBlocks =
      geom.wholeBlocks + if geom.sliceLen % geom.blockLen = 0 then 0 else 1 := by
  have positive : 0 < geom.blockLen := valid.block_pos
  have whole := Nat.div_add_mod geom.sliceLen geom.blockLen
  have less := Nat.mod_lt geom.sliceLen positive
  have up := Nat.div_add_mod (geom.sliceLen + geom.blockLen - 1) geom.blockLen
  have rest := Nat.mod_lt (geom.sliceLen + geom.blockLen - 1) positive
  have quotient : geom.aligned.sliceBlocks =
      (geom.sliceLen + geom.blockLen - 1) / geom.blockLen := by
    simp only [sliceBlocks, aligned]
    apply Nat.div_eq_of_eq_mul_right positive
    omega
  rw [quotient, wholeBlocks]
  have sum : geom.sliceLen + geom.blockLen - 1 =
      geom.blockLen * (geom.sliceLen / geom.blockLen) +
        (geom.sliceLen % geom.blockLen + (geom.blockLen - 1)) := by omega
  rw [sum, Nat.mul_add_div positive]
  congr 1
  split
  case isTrue zero =>
    apply Nat.div_eq_of_lt
    omega
  case isFalse more =>
    apply Nat.div_eq_of_lt_le
    · omega
    · omega

theorem whole_iff (block : ℕ) :
    geom.blockLen * (block + 1) ≤ geom.sliceLen ↔ block < geom.wholeBlocks := by
  have positive : 0 < geom.blockLen := valid.block_pos
  rw [wholeBlocks, Nat.lt_iff_add_one_le, Nat.le_div_iff_mul_le positive, Nat.mul_comm]

theorem finishBlockAt_eq {block : ℕ} (whole : block < geom.wholeBlocks) (state : FinishState) :
    geom.finishBlockAt transform check (geom.blockLen * block)
        (src (geom.aligned.slot outputNum block)) state =
      geom.finishBlock transform check src outputNum state block := by
  rw [finishBlock]
  exact (if_pos ((whole_iff valid block).mpr whole)).symm

theorem finishRestAt_eq {block : ℕ} (rest : ¬ block < geom.wholeBlocks) (state : FinishState) :
    unlessFinished state
        (geom.finishRestAt transform check (geom.blockLen * block)
          (geom.sliceLen - geom.blockLen * block)
          (src (geom.aligned.slot outputNum block)) state) =
      geom.finishBlock transform check src outputNum state block := by
  rw [finishBlock]
  exact (if_neg fun whole => rest ((whole_iff valid block).mp whole)).symm

/-- Blocks of a chunk that are whole, as a loop. -/
theorem finishWhole_eq (chunk first last : ℕ)
    (whole : chunk * geom.aligned.dataBlocks + last ≤ geom.wholeBlocks)
    (base : ℕ)
    (places : ∀ block < last, base +
        geom.aligned.blockLen * block * geom.aligned.interleaveBy outputNum =
      geom.aligned.slot outputNum (chunk * geom.aligned.dataBlocks + block))
    (state : FinishState) :
    (blockPositions geom.aligned.blockLen (geom.aligned.blockLen * first)
        (geom.aligned.blockLen * last)).foldlM
        (fun state pos =>
          geom.finishBlockAt transform check (geom.aligned.dataChunkLen * chunk + pos)
            (src (base + pos * geom.aligned.interleaveBy outputNum)) state)
        state =
      (List.range' (chunk * geom.aligned.dataBlocks + first)
          (chunk * geom.aligned.dataBlocks + last -
            (chunk * geom.aligned.dataBlocks + first))).foldlM
        (geom.finishBlock transform check src outputNum) state := by
  rw [foldlM_positions valid, ← foldlM_shift]
  apply foldlM_congr
  intro block member state
  rw [List.mem_range'_1] at member
  have position : geom.aligned.dataChunkLen * chunk + geom.aligned.blockLen * block =
      geom.blockLen * (chunk * geom.aligned.dataBlocks + block) := by
    rw [dataChunkLen_eq valid]
    change geom.blockLen * _ * _ + geom.blockLen * _ = _
    ring
  rw [places block (by omega), position,
    finishBlockAt_eq transform check src outputNum valid (by omega)]

theorem aligned_le :
    geom.wholeBlocks ≤ geom.aligned.sliceBlocks ∧
      geom.aligned.sliceBlocks ≤ geom.wholeBlocks + 1 := by
  have blocks := aligned_blocks valid
  split at blocks
  · omega
  · omega

/-- The address of a block in a chunk that is full of data. -/
theorem fullChunk_address {chunk block : ℕ}
    (full : chunk < geom.aligned.fullChunks)
    (room : block < geom.aligned.dataBlocks) :
    geom.aligned.inputBase outputNum geom.aligned.chunkLen +
        geom.aligned.chunkStride * chunk +
        geom.aligned.blockLen * block * geom.aligned.interleaveBy outputNum =
      geom.aligned.slot outputNum (chunk * geom.aligned.dataBlocks + block) := by
  have next := Nat.mul_le_mul_right geom.aligned.dataBlocks full
  have inside := geom.aligned.fullChunks_le
  rw [Nat.succ_mul] at next
  have address := data_address valid.blocked outputNum chunk room (by omega)
  rwa [← fullChunkLen_eq valid.blocked full] at address

theorem finishFullChunk_eq {chunk position : ℕ}
    (full : chunk < geom.aligned.fullChunks)
    (whole : (chunk + 1) * geom.aligned.dataBlocks ≤ geom.wholeBlocks)
    (state : FinishState) :
    geom.finishFullChunk transform check src outputNum chunk
        (geom.aligned.blockLen * position) state =
      (List.range' position (geom.aligned.dataBlocks - position)).foldlM
        (fun state block => geom.finishBlock transform check src outputNum state
          (chunk * geom.aligned.dataBlocks + block)) state := by
  rw [Nat.succ_mul] at whole
  have loop := finishWhole_eq transform check src outputNum valid chunk position
    geom.aligned.dataBlocks whole _
    (fun block room => fullChunk_address outputNum valid full room) state
  rw [foldlM_shift, ← loop, ← dataChunkLen_eq valid]
  rfl

/-- The chunk in which the slice ends inside a block. -/
theorem finishShortChunk_eq {chunk position : ℕ}
    (full : chunk < geom.aligned.fullChunks)
    (short : (chunk + 1) * geom.aligned.dataBlocks = geom.wholeBlocks + 1)
    (ordered : position < geom.aligned.dataBlocks) (state : FinishState) :
    geom.finishShortChunk transform check src outputNum chunk
        (geom.aligned.blockLen * position) state =
      (List.range' position (geom.aligned.dataBlocks - position)).foldlM
        (fun state block => geom.finishBlock transform check src outputNum state
          (chunk * geom.aligned.dataBlocks + block)) state := by
  have last : geom.aligned.dataBlocks = geom.aligned.dataBlocks - 1 + 1 := by omega
  have end_ : chunk * geom.aligned.dataBlocks + (geom.aligned.dataBlocks - 1) =
      geom.wholeBlocks := by
    rw [Nat.succ_mul] at short
    omega
  have limit : geom.aligned.dataChunkLen - geom.aligned.blockLen =
      geom.aligned.blockLen * (geom.aligned.dataBlocks - 1) := by
    rw [dataChunkLen_eq valid, Nat.mul_sub, Nat.mul_one]
  have position_ : geom.aligned.dataChunkLen * chunk +
      geom.aligned.blockLen * (geom.aligned.dataBlocks - 1) =
        geom.blockLen * geom.wholeBlocks := by
    rw [dataChunkLen_eq valid, ← end_]
    change geom.blockLen * _ * _ + geom.blockLen * _ = _
    ring
  have loop := finishWhole_eq transform check src outputNum valid chunk position
    (geom.aligned.dataBlocks - 1) end_.le _
    (fun block room => fullChunk_address outputNum valid full (by omega)) state
  have address := fullChunk_address outputNum valid full
    (show geom.aligned.dataBlocks - 1 < geom.aligned.dataBlocks by omega)
  rw [end_] at address
  rw [end_] at loop
  simp only [finishShortChunk, limit, positionBehind_eq valid (show position ≤
    geom.aligned.dataBlocks - 1 by omega), loop, Nat.sub_sub, position_, address,
    finishRestAt_eq transform check src outputNum valid (lt_irrefl _)]
  have stop : chunk * geom.aligned.dataBlocks + position ≤ geom.wholeBlocks := by omega
  have reach : chunk * geom.aligned.dataBlocks + geom.aligned.dataBlocks =
      geom.wholeBlocks + 1 := by
    rw [← Nat.succ_mul]
    exact short
  rw [foldlM_shift, foldlM_range_succ _ _ stop, reach]

/-- The bytes before a chunk. -/
theorem chunk_bytes (chunk : ℕ) : geom.aligned.dataChunkLen * chunk =
    geom.blockLen * (chunk * geom.aligned.dataBlocks) := by
  rw [dataChunkLen_eq valid]
  change geom.blockLen * _ * _ = _
  ring

/-- A chunk reaches behind the slice when it has a block that is not whole. -/
theorem short_iff (current : ℕ) : geom.aligned.dataChunkLen * (current + 1) > geom.sliceLen ↔
    geom.wholeBlocks < (current + 1) * geom.aligned.dataBlocks := by
  rw [chunk_bytes valid, gt_iff_lt, ← not_le, ← not_le, wholeBlocks,
    Nat.le_div_iff_mul_le (show 0 < geom.blockLen from valid.block_pos), Nat.mul_comm]

/-- The chunks that are full, as one loop. -/
theorem finishChunks_eq (chunk position : ℕ) (inside : position < geom.aligned.dataBlocks)
    (state : FinishState) :
    (List.range' chunk
        (geom.aligned.fullChunks - chunk)).foldlM
        (fun state current =>
          if geom.aligned.dataChunkLen * (current + 1) > geom.sliceLen then
            geom.finishShortChunk transform check src outputNum current
              (if current = chunk then geom.aligned.blockLen * position else 0) state
          else
            geom.finishFullChunk transform check src outputNum current
              (if current = chunk then geom.aligned.blockLen * position else 0) state)
        state =
      (List.range' (chunk * geom.aligned.dataBlocks + position)
          (geom.aligned.fullChunks * geom.aligned.dataBlocks -
              (chunk * geom.aligned.dataBlocks + position))).foldlM
        (geom.finishBlock transform check src outputNum) state := by
  have positive := dataBlocks_pos valid.blocked
  have blocks := aligned_le valid
  have inside_ := geom.aligned.fullChunks_le
  rw [← foldlM_chunks _ _ _ _ _ inside.le]
  apply foldlM_congr
  intro current member state
  rw [List.mem_range'_1] at member
  have full : current < geom.aligned.fullChunks := by omega
  have next := Nat.mul_le_mul_right geom.aligned.dataBlocks
    (show current + 1 ≤ geom.aligned.fullChunks from full)
  have start : (if current = chunk then geom.aligned.blockLen * position else 0) =
      geom.aligned.blockLen * if current = chunk then position else 0 := by
    split
    · rfl
    · rfl
  have below : (if current = chunk then position else 0) < geom.aligned.dataBlocks := by
    split
    · exact inside
    · exact positive
  have cut := short_iff valid current
  rw [start]
  split
  case isTrue short =>
    have behind := cut.mp short
    exact finishShortChunk_eq transform check src outputNum valid full (by omega) below state
  case isFalse long =>
    exact finishFullChunk_eq transform check src outputNum valid full (not_lt.mp fun behind =>
      long (cut.mpr behind)) state

/-- The last chunk, when it is not full, up to the check behind it. -/
theorem finishLastChunk_eq {position : ℕ}
    (some : geom.aligned.sliceBlocks % geom.aligned.dataBlocks ≠ 0)
    (ordered : geom.aligned.fullChunks * geom.aligned.dataBlocks + position ≤ geom.wholeBlocks)
    (state : FinishState) :
    geom.finishLastChunk transform check src outputNum geom.aligned.fullChunks
        (geom.aligned.blockLen * position)
        (geom.sliceLen - geom.blockLen * (geom.aligned.fullChunks * geom.aligned.dataBlocks))
        state =
      (List.range' (geom.aligned.fullChunks * geom.aligned.dataBlocks + position)
          (geom.aligned.sliceBlocks -
            (geom.aligned.fullChunks * geom.aligned.dataBlocks + position))).foldlM
          (geom.finishBlock transform check src outputNum) state >>= fun state =>
        if geom.sliceLen % geom.blockLen = 0 then unlessFinished state state
        else .ok state := by
  have positive : 0 < geom.blockLen := valid.block_pos
  have own := geom.aligned.fullChunks_add
  have room := Nat.mod_lt geom.aligned.sliceBlocks (dataBlocks_pos valid.blocked)
  have blocks := aligned_blocks valid
  have split := Nat.div_add_mod geom.sliceLen geom.blockLen
  have less := Nat.mod_lt geom.sliceLen positive
  have places := fun block (inside : block < geom.aligned.sliceBlocks %
      geom.aligned.dataBlocks) => data_address valid.blocked outputNum
    geom.aligned.fullChunks (inside.trans room)
    (by omega)
  have bytes := chunk_bytes valid geom.aligned.fullChunks
  have loop := fun whole places state => finishWhole_eq transform check src outputNum valid
    geom.aligned.fullChunks position
    (geom.wholeBlocks - geom.aligned.fullChunks * geom.aligned.dataBlocks) whole
    (geom.aligned.inputBase outputNum (geom.aligned.blockLen *
        geom.aligned.blocksIn geom.aligned.fullChunks) +
      geom.aligned.chunkStride *
        geom.aligned.fullChunks) places state
  simp only [finishLastChunk, lastChunkLen_eq valid.blocked some, bytes]
  simp only [bytes] at loop
  generalize geom.aligned.inputBase outputNum (geom.aligned.blockLen *
      geom.aligned.blocksIn geom.aligned.fullChunks) +
    geom.aligned.chunkStride *
      geom.aligned.fullChunks = start at *
  generalize geom.aligned.fullChunks * geom.aligned.dataBlocks = base at *
  change geom.blockLen * geom.wholeBlocks + _ = _ at split
  have wholeBytes : geom.blockLen * base +
      geom.blockLen * (geom.wholeBlocks - base) =
        geom.blockLen * geom.wholeBlocks := by
    rw [← Nat.mul_add]
    congr 1
    omega
  have remaining : geom.sliceLen - geom.blockLen * base =
      geom.blockLen * (geom.wholeBlocks - base) +
        geom.sliceLen % geom.blockLen := by omega
  have limit : geom.sliceLen - geom.blockLen * base -
      (geom.sliceLen - geom.blockLen * base) % geom.aligned.blockLen =
        geom.aligned.blockLen * (geom.wholeBlocks - base) := by
    rw [remaining]
    change _ - _ % geom.blockLen = geom.blockLen * _
    rw [Nat.mul_add_mod, Nat.mod_eq_of_lt less, Nat.add_sub_cancel]
  have reached : base + (geom.wholeBlocks - base) = geom.wholeBlocks := by omega
  have copies := loop (by omega) (fun block inside => places block (by split at blocks <;> omega))
  rw [reached] at copies
  simp only [limit, copies, positionBehind_eq valid (show position ≤ geom.wholeBlocks - base by
    omega)]
  change (_ >>= fun state => unlessFinished state (if geom.blockLen * _ < _ then
    finishRestAt geom transform check (geom.blockLen * base + geom.blockLen * _)
      (_ - geom.blockLen * _) (src (start + geom.aligned.blockLen * _ * _)) state
    else state)) = _
  rw [wholeBytes, remaining]
  by_cases exact : geom.sliceLen % geom.blockLen = 0
  · rw [if_pos exact, Nat.add_zero] at blocks
    simp only [exact, Nat.add_zero, lt_irrefl, if_false, if_true, blocks]
  · rw [if_neg exact] at blocks
    have more : geom.blockLen * (geom.wholeBlocks - base) <
        geom.blockLen * (geom.wholeBlocks - base) +
          geom.sliceLen % geom.blockLen := by omega
    have left : geom.sliceLen % geom.blockLen =
        geom.sliceLen - geom.blockLen * geom.wholeBlocks := by omega
    have address := places (geom.wholeBlocks - base) (by omega)
    rw [reached] at address
    simp only [if_pos more, if_neg exact, Nat.add_sub_cancel_left]
    rw [address]
    simp only [left, finishRestAt_eq transform check src outputNum valid (lt_irrefl _)]
    rw [foldlM_range_succ _ _ ordered, ← blocks]
    exact (bind_pure _).symm

/-! ## The function as one loop -/

theorem aligned_slice : geom.aligned.sliceLen = geom.blockLen * geom.aligned.sliceBlocks :=
  (sliceBlocks_mul valid.blocked).symm

section Start

variable {start : ℕ}

/-- Where a call begins, as a chunk and a block in it. -/
theorem start_place (reached : start ≤ geom.aligned.sliceBlocks) :
    geom.blockLen * start / geom.aligned.dataChunkLen % 2 ^ 32 =
        start / geom.aligned.dataBlocks ∧
      geom.blockLen * start % geom.aligned.dataChunkLen =
        geom.aligned.blockLen * (start % geom.aligned.dataBlocks) := by
  have count : geom.blockLen * start / geom.aligned.dataChunkLen =
      start / geom.aligned.dataBlocks := by
    rw [dataChunkLen_eq valid]
    exact Nat.mul_div_mul_left _ _ valid.block_pos
  have order : start / geom.aligned.dataBlocks ≤ geom.aligned.fullChunks :=
    Nat.div_le_div_right reached
  constructor
  · rw [count]
    apply Nat.mod_eq_of_lt
    apply order.trans_lt
    rw [← fullChunks_eq valid.blocked]
    exact valid.chunks_small
  · rw [dataChunkLen_eq valid]
    exact Nat.mul_mod_mul_left _ _ _

/-- The slice ends inside the last full chunk. -/
theorem ended_of_cut (reached : start ≤ geom.wholeBlocks)
    (none : geom.aligned.sliceBlocks % geom.aligned.dataBlocks = 0)
    (more : geom.sliceLen % geom.blockLen ≠ 0) :
    ((List.range' (start / geom.aligned.dataBlocks)
      (geom.aligned.fullChunks - start / geom.aligned.dataBlocks)).any fun current =>
        decide (geom.wholeBlocks < (current + 1) * geom.aligned.dataBlocks)) = true := by
  have blocks := aligned_blocks valid
  rw [if_neg more] at blocks
  have all := geom.aligned.fullChunks_add
  have early : start / geom.aligned.dataBlocks < geom.aligned.fullChunks := by
    rw [Nat.div_lt_iff_lt_mul (dataBlocks_pos valid.blocked)]
    omega
  generalize start / geom.aligned.dataBlocks = first at early ⊢
  rw [List.any_eq_true]
  refine ⟨geom.aligned.fullChunks - 1, ?_, ?_⟩
  · rw [List.mem_range'_1]
    omega
  · rw [decide_eq_true_iff, Nat.sub_add_cancel (by omega)]
    omega

/-- Elsewhere the full chunks hold whole blocks only. -/
theorem chunked_le (cut : ¬ (geom.aligned.sliceBlocks % geom.aligned.dataBlocks = 0 ∧
      geom.sliceLen % geom.blockLen ≠ 0)) :
    geom.aligned.fullChunks * geom.aligned.dataBlocks ≤ geom.wholeBlocks := by
  have blocks := aligned_blocks valid
  have all := geom.aligned.fullChunks_add
  split at blocks
  case isTrue => omega
  case isFalse more =>
    have some : geom.aligned.sliceBlocks % geom.aligned.dataBlocks ≠ 0 := fun none => cut ⟨none, more⟩
    omega

omit valid in
theorem not_ended (before : geom.aligned.fullChunks * geom.aligned.dataBlocks ≤ geom.wholeBlocks) :
    ((List.range' (start / geom.aligned.dataBlocks)
      (geom.aligned.fullChunks - start / geom.aligned.dataBlocks)).any fun current =>
        decide (geom.wholeBlocks < (current + 1) * geom.aligned.dataBlocks)) = false := by
  rw [List.any_eq_false]
  intro current member
  rw [List.mem_range'_1] at member
  have next := Nat.mul_le_mul_right geom.aligned.dataBlocks
    (show current + 1 ≤ geom.aligned.fullChunks by omega)
  rw [decide_eq_true_iff, not_lt]
  exact next.trans before

/-- The function, as one loop over the blocks of the slice. A last chunk that ends with a whole
block checks once more whether the part is done. -/
theorem finishBlocks_eq (ordered : geom.blockLen * start ≤ geom.sliceLen) (state : FinishState) :
    geom.finishBlocks transform check src outputNum (geom.blockLen * start) state =
      (List.range' start (geom.aligned.sliceBlocks - start)).foldlM
          (geom.finishBlock transform check src outputNum) state >>= fun state =>
        if geom.aligned.sliceBlocks % geom.aligned.dataBlocks ≠ 0 ∧
            geom.sliceLen % geom.blockLen = 0 then unlessFinished state state
        else .ok state := by
  have positive : 0 < geom.blockLen := valid.block_pos
  have room := dataBlocks_pos valid.blocked
  have reached : start ≤ geom.wholeBlocks := by
    rw [wholeBlocks, Nat.le_div_iff_mul_le positive, Nat.mul_comm]
    exact ordered
  have blocks := aligned_blocks valid
  have bounds := aligned_le valid
  have own := Nat.div_add_mod' start geom.aligned.dataBlocks
  have inside := Nat.mod_lt start room
  have all := geom.aligned.fullChunks_add
  have less := Nat.mod_lt geom.aligned.sliceBlocks room
  have whole : geom.blockLen * geom.wholeBlocks + geom.sliceLen % geom.blockLen =
      geom.sliceLen := Nat.div_add_mod _ _
  have rest := Nat.mod_lt geom.sliceLen positive
  have chunks : geom.aligned.sliceLen / geom.aligned.dataChunkLen % 2 ^ 32 =
      geom.aligned.fullChunks := by
    rw [Nat.mod_eq_of_lt valid.chunks_small, fullChunks_eq valid.blocked]
  have chunkOrder : start / geom.aligned.dataBlocks ≤ geom.aligned.fullChunks :=
    Nat.div_le_div_right (reached.trans bounds.1)
  obtain ⟨chunk, pos⟩ := start_place valid (reached.trans bounds.1)
  simp only [finishBlocks, chunks, chunk, pos, short_iff valid]
  have loop := finishChunks_eq transform check src outputNum valid
    (start / geom.aligned.dataBlocks) (start % geom.aligned.dataBlocks) inside state
  simp only [short_iff valid] at loop
  rw [loop, own]
  by_cases cut : geom.aligned.sliceBlocks % geom.aligned.dataBlocks = 0 ∧
      geom.sliceLen % geom.blockLen ≠ 0
  case pos =>
    obtain ⟨none, more⟩ := cut
    have last : geom.aligned.fullChunks * geom.aligned.dataBlocks = geom.aligned.sliceBlocks := by
      omega
    simp only [ended_of_cut valid reached none more, if_true, ne_eq, not_true_eq_false, if_false, none,
      false_and, last]
    rfl
  case neg =>
    have before := chunked_le valid cut
    have beforeBytes := Nat.mul_le_mul_left geom.blockLen before
    have remaining : (geom.sliceLen : ℤ) - (geom.aligned.fullChunks : ℤ) *
          (geom.aligned.dataChunkLen : ℤ) =
        ((geom.sliceLen - geom.blockLen *
          (geom.aligned.fullChunks * geom.aligned.dataBlocks) : ℕ) : ℤ) := by
      rw [← Nat.cast_mul, Nat.mul_comm geom.aligned.fullChunks, chunk_bytes valid, Nat.cast_sub (by omega)]
    simp only [not_ended before, Bool.false_eq_true, if_false, remaining, ne_eq, Nat.cast_eq_zero,
      Int.toNat_natCast]
    by_cases some : geom.aligned.sliceBlocks % geom.aligned.dataBlocks = 0
    case pos =>
      have exact : geom.sliceLen % geom.blockLen = 0 := by
        by_contra more
        exact cut ⟨some, more⟩
      have last : geom.aligned.fullChunks * geom.aligned.dataBlocks =
          geom.aligned.sliceBlocks := by omega
      have none : geom.sliceLen - geom.blockLen * geom.aligned.sliceBlocks = 0 := by
        rw [if_pos exact, Nat.add_zero] at blocks
        rw [blocks]
        omega
      simp only [some, last, none, not_true_eq_false, if_false, false_and]
      rfl
    case neg =>
      have more : ¬ geom.sliceLen - geom.blockLen *
          (geom.aligned.fullChunks * geom.aligned.dataBlocks) = 0 := by
        split at blocks
        · have next := Nat.mul_le_mul_left geom.blockLen
            (show geom.aligned.fullChunks * geom.aligned.dataBlocks + 1 ≤ geom.wholeBlocks by omega)
          rw [Nat.mul_succ] at next
          omega
        · omega
      have chunk := fun position => @finishLastChunk_eq geom transform check src outputNum valid
        position some
      simp only [if_pos more, some, not_false_eq_true, true_and]
      by_cases early : start / geom.aligned.dataBlocks < geom.aligned.fullChunks
      case pos =>
        have entered := Nat.mul_le_mul_right geom.aligned.dataBlocks early
        rw [Nat.succ_mul] at entered
        have next := chunk 0 before
        simp only [Nat.mul_zero, Nat.add_zero] at next
        simp only [if_pos early, next, ← bind_assoc]
        rw [foldlM_range_append _ _ (by omega) (by omega)]
      case neg =>
        have same : start / geom.aligned.dataBlocks = geom.aligned.fullChunks := by omega
        have next := chunk (start % geom.aligned.dataBlocks) (by rw [← same, own]; exact reached)
        rw [← same, own] at next
        have nothing : start / geom.aligned.dataBlocks * geom.aligned.dataBlocks - start =
            0 := by omega
        simp only [← same, lt_irrefl, if_false, nothing, List.range'_zero, List.foldlM_nil,
          pure_bind, next]

end Start

end OneLoop

/-! ## What a call leaves behind -/

/-- The bytes of a block of the output. -/
def unpackedBlock (block : ℕ) : Buffer :=
  let packed := src (geom.aligned.slot outputNum block)
  if geom.blockLen * (block + 1) ≤ geom.sliceLen then transform.finishBlock packed
  else transform.finishBlockU packed (geom.sliceLen - geom.blockLen * block)

/-- How a block of the output changes the checksum. -/
def checkOutput (block : ℕ) (checksum : Buffer) : Buffer :=
  let bytes := geom.unpackedBlock transform src outputNum block
  if geom.hasChecksum then
    if geom.blockLen * (block + 1) ≤ geom.sliceLen then check.checksumBlock bytes checksum
    else check.checksumBlockU bytes checksum
  else checksum

/-- The output with these blocks written. -/
def unpackBlocks (start stop : ℕ) (dst : ByteMemory) : ByteMemory :=
  (List.range' start (stop - start)).foldl
    (fun dst block => writeBytes dst (geom.blockLen * block)
      (geom.unpackedBlock transform src outputNum block))
    dst

/-- The checksum with these blocks of the output added. -/
def checkOutputs (start stop : ℕ) (checksum : Buffer) : Buffer :=
  (List.range' start (stop - start)).foldl
    (fun checksum block => geom.checkOutput transform check src outputNum block checksum)
    checksum

section Outcomes

variable {geom}

/-- A block is written back, unless the part is done. -/
theorem finishBlock_eq (state : FinishState) (block : ℕ) :
    geom.finishBlock transform check src outputNum state block =
      unlessFinished state
        { dst := writeBytes state.dst (geom.blockLen * block)
            (geom.unpackedBlock transform src outputNum block)
          checksum := geom.checkOutput transform check src outputNum block state.checksum
          partLeft :=
            if geom.blockLen * (block + 1) ≤ geom.sliceLen then
              state.partLeft - geom.blockLen
            else state.partLeft } := by
  simp only [finishBlock, unpackedBlock, checkOutput, finishBlockAt, finishRestAt]
  split
  · rfl
  · rfl

/-- Whole blocks of a part that is long enough. -/
theorem foldlM_finishBlock_ok {start stop : ℕ} (whole : stop ≤ geom.wholeBlocks)
    (positive : 0 < geom.blockLen) (state : FinishState)
    (long : geom.blockLen * (stop - start) ≤ state.partLeft) :
    (List.range' start (stop - start)).foldlM (geom.finishBlock transform check src outputNum)
        state =
      .ok
        { dst := geom.unpackBlocks transform src outputNum start stop state.dst
          checksum := geom.checkOutputs transform check src outputNum start stop state.checksum
          partLeft := state.partLeft - geom.blockLen * (stop - start) } := by
  simp only [unpackBlocks, checkOutputs]
  generalize turns : stop - start = count at long
  induction count generalizing start state with
  | zero => rfl
  | succ count ih =>
    rw [Nat.mul_succ] at long
    have more : state.partLeft ≠ 0 := by omega
    have bytes : geom.blockLen * (start + 1) ≤ geom.sliceLen := by
      rw [Nat.mul_comm, ← Nat.le_div_iff_mul_le positive]
      exact le_trans (show start + 1 ≤ stop by omega) whole
    rw [List.range'_succ, List.foldlM_cons, List.foldl_cons, List.foldl_cons, finishBlock_eq,
      unlessFinished, if_neg more, ok_bind, ih _ (by omega)]
    · have left : state.partLeft - geom.blockLen - geom.blockLen * count =
          state.partLeft - geom.blockLen * (count + 1) := by
        rw [Nat.mul_succ]
        omega
      simp only [if_pos bytes, left]
    · simp only [if_pos bytes]
      omega

/-- A part that ends before the slice does is written as far as it goes. -/
theorem foldlM_finishBlock_error {start count : ℕ} (positive : 0 < geom.blockLen)
    (before : geom.blockLen * (start + count) < geom.sliceLen) (stop : ℕ)
    (more : start + count < stop) (state : FinishState)
    (part : state.partLeft = geom.blockLen * count) :
    (List.range' start (stop - start)).foldlM (geom.finishBlock transform check src outputNum)
        state =
      .error
        { dst := geom.unpackBlocks transform src outputNum start (start + count) state.dst
          checksum :=
            geom.checkOutputs transform check src outputNum start (start + count) state.checksum
          partLeft := 0 } := by
  have whole : start + count ≤ geom.wholeBlocks := by
    rw [wholeBlocks, Nat.le_div_iff_mul_le positive, Nat.mul_comm]
    exact before.le
  have first := foldlM_range_append (geom.finishBlock transform check src outputNum) state
    (Nat.le_add_right start count) more.le
  have turns : start + count - start = count := by omega
  have written := @foldlM_finishBlock_ok geom transform check src outputNum start _ whole
    positive state (by rw [turns, part])
  have next : stop - (start + count) = stop - (start + count) - 1 + 1 := by omega
  rw [← first, written, ok_bind, next, List.range'_succ, List.foldlM_cons, finishBlock_eq,
    unlessFinished, if_pos]
  · simp only [turns, part, Nat.sub_self]
    rfl
  · simp only [turns, part, Nat.sub_self]

/-- What remains of a slice is written, and the part is not done behind it. -/
theorem foldlM_finishBlock_rest {start : ℕ} (valid : geom.aligned.Valid)
    (reached : start ≤ geom.wholeBlocks) (state : FinishState)
    (long : geom.blockLen * (geom.wholeBlocks - start) < state.partLeft) :
    ∃ partLeft, partLeft ≠ 0 ∧
      (List.range' start (geom.aligned.sliceBlocks - start)).foldlM
          (geom.finishBlock transform check src outputNum) state =
        .ok
          { dst := geom.unpackBlocks transform src outputNum start geom.aligned.sliceBlocks
              state.dst
            checksum := geom.checkOutputs transform check src outputNum start
              geom.aligned.sliceBlocks state.checksum
            partLeft := partLeft } := by
  have positive : 0 < geom.blockLen := valid.block_pos
  have blocks := aligned_blocks valid
  have written := @foldlM_finishBlock_ok geom transform check src outputNum start _ le_rfl
    positive state long.le
  by_cases exact : geom.sliceLen % geom.blockLen = 0
  · rw [if_pos exact, Nat.add_zero] at blocks
    rw [blocks, written]
    refine ⟨_, ?_, rfl⟩
    omega
  · rw [if_neg exact] at blocks
    have cut : ¬ geom.blockLen * (geom.wholeBlocks + 1) ≤ geom.sliceLen :=
      fun whole => lt_irrefl _ ((whole_iff valid _).mp whole)
    have one : geom.wholeBlocks + 1 - geom.wholeBlocks = 1 := by omega
    refine ⟨state.partLeft - geom.blockLen * (geom.wholeBlocks - start), ?_, ?_⟩
    · omega
    · rw [blocks, ← foldlM_range_succ _ _ reached, written, ok_bind, finishBlock_eq, unlessFinished,
        if_neg (by simp only []; omega)]
      simp only [if_neg cut, unpackBlocks, checkOutputs,
        range_split reached (Nat.le_succ geom.wholeBlocks), List.foldl_append, Nat.succ_eq_add_one,
        one, List.range'_one, List.foldl_cons, List.foldl_nil]

/-- The checksum of an output behind its last block. -/
def checkedTo (geom : PackedGeometry) (start stop : ℕ) : Buffer :=
  geom.checkOutputs transform check src outputNum start stop
    (if geom.hasChecksum then
      geom.rewound check (geom.blockLen * start)
        (src (geom.aligned.gf16_checksum_ptr outputNum))
    else [])

/-- A part that ends before the slice does. -/
theorem finish_part (valid : geom.aligned.Valid) (dst : ByteMemory) (start count : ℕ)
    (before : geom.blockLen * (start + count) < geom.sliceLen) :
    geom.gf16_finish_packed transform check src outputNum dst (geom.blockLen * start)
        (geom.blockLen * count) =
      (geom.unpackBlocks transform src outputNum start (start + count) dst,
        if geom.hasChecksum then
          Function.update src (geom.aligned.gf16_checksum_ptr outputNum)
            (checkedTo transform check src outputNum geom start (start + count))
        else src,
        false) := by
  have positive : 0 < geom.blockLen := valid.block_pos
  have bytes := Nat.mul_add geom.blockLen start count
  have more : start + count < geom.aligned.sliceBlocks := by
    by_contra far
    have whole := Nat.mul_le_mul_left geom.blockLen (not_lt.mp far)
    have slice := aligned_slice valid
    have up : geom.sliceLen ≤ geom.aligned.sliceLen := by
      have rest := Nat.mod_lt (geom.sliceLen + geom.blockLen - 1) positive
      simp only [aligned]
      omega
    omega
  rw [gf16_finish_packed, if_neg (show geom.blockLen * start + geom.blockLen * count ≠
    geom.sliceLen by omega), finishBlocks_eq transform check src outputNum valid (by omega),
    foldlM_finishBlock_error transform check src outputNum positive before _ more _ rfl, error_bind]
  have part : geom.blockLen * count ≠ geom.sliceLen := by omega
  simp only [part, ne_eq, not_false_eq_true, and_true]
  rfl

/-- The part that ends with the slice. -/
theorem finish_rest (valid : geom.aligned.Valid) (dst : ByteMemory) (start partLen : ℕ)
    (completes : geom.blockLen * start + partLen = geom.sliceLen) :
    geom.gf16_finish_packed transform check src outputNum dst (geom.blockLen * start)
        partLen =
      (geom.unpackBlocks transform src outputNum start geom.aligned.sliceBlocks dst,
        if geom.hasChecksum ∧ partLen ≠ geom.sliceLen then
          Function.update src (geom.aligned.gf16_checksum_ptr outputNum)
            (checkedTo transform check src outputNum geom start geom.aligned.sliceBlocks)
        else src,
        if geom.hasChecksum then
          (checkedTo transform check src outputNum geom start geom.aligned.sliceBlocks).all
            fun byte => byte = 0
        else true) := by
  have positive : 0 < geom.blockLen := valid.block_pos
  have reached : start ≤ geom.wholeBlocks := by
    rw [wholeBlocks, Nat.le_div_iff_mul_le positive, Nat.mul_comm]
    omega
  have long : geom.blockLen * (geom.wholeBlocks - start) < partLen + geom.blockLen := by
    have whole := Nat.div_mul_le_self geom.sliceLen geom.blockLen
    rw [Nat.mul_sub, Nat.mul_comm geom.blockLen geom.wholeBlocks, wholeBlocks]
    omega
  obtain ⟨partLeft, more, written⟩ := foldlM_finishBlock_rest transform check src outputNum valid
    reached ⟨dst, if geom.hasChecksum then
      geom.rewound check (geom.blockLen * start)
        (src (geom.aligned.gf16_checksum_ptr outputNum))
    else [], partLen + geom.blockLen⟩ long
  rw [gf16_finish_packed, if_pos completes, finishBlocks_eq transform check src outputNum valid
    (by omega), written, ok_bind]
  simp only [unlessFinished, if_neg more, ite_self, completes, and_true]
  rfl

end Outcomes

end PackedGeometry

end Par3
