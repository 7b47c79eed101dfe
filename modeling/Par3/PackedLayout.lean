import Mathlib.Data.Nat.Basic
import Mathlib.Tactic.Linarith
import Mathlib.Tactic.Ring
import Mathlib.Tactic.NormNum

/-!
# Packed buffers

The inputs of a slice computation are packed in one buffer. The buffer consists of chunks, a chunk
holds `chunkLen` bytes of each input, and inside a chunk the blocks of a few inputs are
interleaved. The last chunk is as long as what is left. A slice may be followed by one more block
that holds its checksum.

A block of an input is addressed in full chunks, in the last chunk and behind the slice in
different ways. All of them agree with one numbering of the blocks of the buffer, in which two
blocks never meet.
-/
namespace Par3

/-- The sizes of a packed buffer. -/
structure PackedGeometry where
  sliceLen : ℕ
  blockLen : ℕ
  inputPackSize : ℕ
  chunkLen : ℕ
  interleaveSize : ℕ
  hasChecksum : Bool

namespace PackedGeometry

variable (geom : PackedGeometry)

def checksumLen : ℕ := if geom.hasChecksum then geom.blockLen else 0

/-- The slice with a block appended for the checksum. -/
def effectiveSliceLen : ℕ := geom.sliceLen + geom.checksumLen

def dataChunkLen : ℕ :=
  if geom.sliceLen < geom.chunkLen then geom.sliceLen else geom.chunkLen

/-- Interleaving is reduced for the last few inputs. -/
def interleaveBy (inputNum : ℕ) : ℕ :=
  if geom.inputPackSize - geom.inputPackSize % geom.interleaveSize ≤ inputNum then
    geom.inputPackSize % geom.interleaveSize
  else geom.interleaveSize

def chunkStride : ℕ := geom.chunkLen * geom.inputPackSize

def effectiveLastChunkLen : ℕ :=
  if geom.effectiveSliceLen % geom.chunkLen = 0 then geom.chunkLen
  else geom.effectiveSliceLen % geom.chunkLen

/-- Where an input begins in a chunk of this length. -/
def inputBase (inputNum chunkLen : ℕ) : ℕ :=
  inputNum / geom.interleaveSize * chunkLen * geom.interleaveSize +
    inputNum % geom.interleaveSize * geom.blockLen

/-- `gf16_checksum_ptr`, which counts chunks in 32 bits. -/
def gf16_checksum_ptr (index : ℕ) : ℕ :=
  let effectiveLastChunkLen :=
    if (geom.sliceLen + geom.blockLen) % geom.chunkLen = 0 then geom.chunkLen
    else (geom.sliceLen + geom.blockLen) % geom.chunkLen
  let fullChunks := geom.sliceLen / geom.chunkLen % 2 ^ 32
  index % geom.interleaveSize * geom.blockLen + geom.chunkStride * fullChunks +
    index / geom.interleaveSize * effectiveLastChunkLen * geom.interleaveSize +
    effectiveLastChunkLen * geom.interleaveBy index -
    geom.blockLen * geom.interleaveBy index

/-- What the packing functions assert of their arguments. -/
structure Asserted : Prop where
  chunk_fits : geom.chunkLen ≤ geom.effectiveSliceLen
  chunk_aligned : geom.chunkLen % geom.blockLen = 0
  slice_aligned : geom.sliceLen % geom.blockLen = 0

/-- Sizes that are divided by are positive, a slice has a size, and its chunks can be counted in
32 bits. -/
structure Sized : Prop where
  block_pos : 0 < geom.blockLen
  interleave_pos : 0 < geom.interleaveSize
  chunk_pos : 0 < geom.chunkLen
  slice_pos : 0 < geom.sliceLen
  slice_small : geom.sliceLen < 2 ^ 64
  chunks_small : geom.sliceLen / geom.dataChunkLen < 2 ^ 32

structure Valid : Prop extends geom.Asserted, geom.Sized

/-- What the numbering of the blocks needs, which is valid or not counted in words. -/
structure Blocked : Prop extends geom.Asserted where
  block_pos : 0 < geom.blockLen
  interleave_pos : 0 < geom.interleaveSize
  chunk_pos : 0 < geom.chunkLen
  slice_pos : 0 < geom.sliceLen

theorem Valid.blocked {geom : PackedGeometry} (valid : geom.Valid) : geom.Blocked :=
  ⟨valid.toAsserted, valid.block_pos, valid.interleave_pos, valid.chunk_pos, valid.slice_pos⟩

/-! ## The numbering of the blocks -/

/-- The blocks of a chunk. -/
def chunkBlocks : ℕ := geom.chunkLen / geom.blockLen

/-- The blocks of a slice without its checksum. -/
def sliceBlocks : ℕ := geom.sliceLen / geom.blockLen

/-- The blocks of a slice that a full chunk holds. -/
def dataBlocks : ℕ := geom.dataChunkLen / geom.blockLen

/-- The chunks that are full of data. -/
def fullChunks : ℕ := geom.sliceBlocks / geom.dataBlocks

theorem fullChunks_add : geom.fullChunks * geom.dataBlocks +
    geom.sliceBlocks % geom.dataBlocks = geom.sliceBlocks :=
  Nat.div_add_mod' _ _

theorem fullChunks_le : geom.fullChunks * geom.dataBlocks ≤ geom.sliceBlocks :=
  Nat.div_mul_le_self _ _

/-- The blocks of an input with its checksum. -/
def inputBlocks : ℕ := geom.effectiveSliceLen / geom.blockLen

/-- The blocks of each input in a chunk, which are fewer in the last one. -/
def blocksIn (chunk : ℕ) : ℕ :=
  if chunk < geom.inputBlocks / geom.chunkBlocks then geom.chunkBlocks
  else geom.inputBlocks % geom.chunkBlocks

/-- The number of a block inside its chunk. -/
def slotInChunk (inputNum chunkBlocks block : ℕ) : ℕ :=
  inputNum / geom.interleaveSize * chunkBlocks * geom.interleaveSize +
    inputNum % geom.interleaveSize + block * geom.interleaveBy inputNum

/-- The number of a block of an input in the whole buffer. -/
def slotNumber (inputNum block : ℕ) : ℕ :=
  block / geom.chunkBlocks * (geom.chunkBlocks * geom.inputPackSize) +
    geom.slotInChunk inputNum (geom.blocksIn (block / geom.chunkBlocks))
      (block % geom.chunkBlocks)

/-- The address of a block of an input. -/
def slot (inputNum block : ℕ) : ℕ := geom.blockLen * geom.slotNumber inputNum block

section Numbering

variable {geom}

/-- A group of inputs that are interleaved is full, or it is the last one. -/
theorem interleaved_group {inputNum : ℕ} (pos : 0 < geom.interleaveSize)
    (inside : inputNum < geom.inputPackSize) :
    inputNum % geom.interleaveSize < geom.interleaveBy inputNum ∧
      inputNum / geom.interleaveSize * geom.interleaveSize +
        geom.interleaveBy inputNum ≤ geom.inputPackSize := by
  have whole := Nat.div_add_mod' geom.inputPackSize geom.interleaveSize
  have own := Nat.div_add_mod' inputNum geom.interleaveSize
  have rest := Nat.mod_lt inputNum pos
  simp only [interleaveBy]
  split
  case isTrue last =>
    have group : inputNum / geom.interleaveSize =
        geom.inputPackSize / geom.interleaveSize := by
      apply le_antisymm
      · exact Nat.div_le_div_right inside.le
      · rw [Nat.le_div_iff_mul_le pos]
        omega
    rw [group] at own ⊢
    omega
  case isFalse early =>
    have group : inputNum / geom.interleaveSize <
        geom.inputPackSize / geom.interleaveSize := by
      rw [Nat.div_lt_iff_lt_mul pos]
      omega
    have groups := Nat.mul_le_mul_right geom.interleaveSize group
    rw [Nat.succ_mul] at groups
    omega

/-- A block of a chunk lies inside the chunk, and inside the part of its group. -/
theorem slotInChunk_bounds {inputNum chunkBlocks block : ℕ} (pos : 0 < geom.interleaveSize)
    (inside : inputNum < geom.inputPackSize) (room : block < chunkBlocks) :
    inputNum / geom.interleaveSize * geom.interleaveSize * chunkBlocks ≤
        geom.slotInChunk inputNum chunkBlocks block ∧
      geom.slotInChunk inputNum chunkBlocks block <
        (inputNum / geom.interleaveSize * geom.interleaveSize +
          geom.interleaveBy inputNum) * chunkBlocks := by
  obtain ⟨column, -⟩ := interleaved_group pos inside
  have row : block * geom.interleaveBy inputNum + geom.interleaveBy inputNum ≤
      chunkBlocks * geom.interleaveBy inputNum := by
    rw [← Nat.succ_mul]
    exact Nat.mul_le_mul_right _ room
  have base : inputNum / geom.interleaveSize * chunkBlocks * geom.interleaveSize =
      inputNum / geom.interleaveSize * geom.interleaveSize * chunkBlocks := by ring
  simp only [slotInChunk, base, Nat.add_mul]
  rw [Nat.mul_comm (geom.interleaveBy inputNum)]
  omega

theorem slotInChunk_lt {inputNum chunkBlocks block : ℕ} (pos : 0 < geom.interleaveSize)
    (inside : inputNum < geom.inputPackSize) (room : block < chunkBlocks) :
    geom.slotInChunk inputNum chunkBlocks block < geom.inputPackSize * chunkBlocks := by
  apply lt_of_lt_of_le (slotInChunk_bounds pos inside room).2
  exact Nat.mul_le_mul_right _ (interleaved_group pos inside).2

/-- Two inputs of one group are interleaved alike. -/
theorem interleaveBy_group {first second : ℕ} (pos : 0 < geom.interleaveSize)
    (group : first / geom.interleaveSize = second / geom.interleaveSize) :
    geom.interleaveBy first = geom.interleaveBy second := by
  have start : geom.inputPackSize - geom.inputPackSize % geom.interleaveSize =
      geom.inputPackSize / geom.interleaveSize * geom.interleaveSize := by
    have whole := Nat.div_add_mod' geom.inputPackSize geom.interleaveSize
    omega
  have same (input : ℕ) :
      geom.inputPackSize / geom.interleaveSize * geom.interleaveSize ≤ input ↔
        geom.inputPackSize / geom.interleaveSize ≤ input / geom.interleaveSize :=
    (Nat.le_div_iff_mul_le pos).symm
  simp only [interleaveBy, start, same, group]

/-- Inside a chunk a number belongs to one block of one input. -/
theorem slotInChunk_injective {first second chunkBlocks one other : ℕ}
    (pos : 0 < geom.interleaveSize) (firstInside : first < geom.inputPackSize)
    (secondInside : second < geom.inputPackSize) (oneRoom : one < chunkBlocks)
    (otherRoom : other < chunkBlocks)
    (same : geom.slotInChunk first chunkBlocks one =
      geom.slotInChunk second chunkBlocks other) :
    first = second ∧ one = other := by
  have apart {low high lowBlock highBlock : ℕ} (lowInside : low < geom.inputPackSize)
      (highInside : high < geom.inputPackSize) (lowRoom : lowBlock < chunkBlocks)
      (highRoom : highBlock < chunkBlocks)
      (less : low / geom.interleaveSize < high / geom.interleaveSize) :
      geom.slotInChunk low chunkBlocks lowBlock <
        geom.slotInChunk high chunkBlocks highBlock := by
    apply lt_of_lt_of_le (slotInChunk_bounds pos lowInside lowRoom).2
    apply le_trans _ (slotInChunk_bounds pos highInside highRoom).1
    apply Nat.mul_le_mul_right
    have full : geom.interleaveBy low ≤ geom.interleaveSize := by
      simp only [interleaveBy]
      split
      · exact (Nat.mod_lt _ pos).le
      · exact le_rfl
    have groups := Nat.mul_le_mul_right geom.interleaveSize less
    rw [Nat.succ_mul] at groups
    omega
  have group : first / geom.interleaveSize = second / geom.interleaveSize := by
    rcases Nat.lt_trichotomy (first / geom.interleaveSize) (second / geom.interleaveSize)
      with less | equal | more
    · exact absurd same (apart firstInside secondInside oneRoom otherRoom less).ne
    · exact equal
    · exact absurd same (apart secondInside firstInside otherRoom oneRoom more).ne'
  have firstColumn := (interleaved_group pos firstInside).1
  have secondColumn := (interleaved_group pos secondInside).1
  simp only [slotInChunk, group, interleaveBy_group pos group] at same firstColumn
  generalize second / geom.interleaveSize * chunkBlocks * geom.interleaveSize = base at same
  generalize geom.interleaveBy second = by_ at *
  have cells : first % geom.interleaveSize + by_ * one =
      second % geom.interleaveSize + by_ * other := by
    rw [Nat.mul_comm by_ one, Nat.mul_comm by_ other]
    omega
  have column := congrArg (· % by_) cells
  have block := congrArg (· / by_) cells
  simp only [Nat.add_mul_mod_self_left, Nat.mod_eq_of_lt firstColumn,
    Nat.mod_eq_of_lt secondColumn] at column
  simp only [Nat.add_mul_div_left _ _ (Nat.zero_lt_of_lt firstColumn),
    Nat.div_eq_of_lt firstColumn, Nat.div_eq_of_lt secondColumn, Nat.zero_add] at block
  constructor
  · rw [← Nat.div_add_mod' first geom.interleaveSize, group, column, Nat.div_add_mod']
  · exact block

end Numbering

/-! ## Sizes in blocks -/

section Blocks

variable {geom} (valid : geom.Blocked)

include valid

theorem chunkBlocks_mul : geom.blockLen * geom.chunkBlocks = geom.chunkLen :=
  Nat.mul_div_cancel' (Nat.dvd_of_mod_eq_zero valid.chunk_aligned)

theorem sliceBlocks_mul : geom.blockLen * geom.sliceBlocks = geom.sliceLen :=
  Nat.mul_div_cancel' (Nat.dvd_of_mod_eq_zero valid.slice_aligned)

theorem inputBlocks_eq :
    geom.inputBlocks = geom.sliceBlocks + if geom.hasChecksum then 1 else 0 := by
  have slice := sliceBlocks_mul valid
  simp only [inputBlocks, effectiveSliceLen, checksumLen, ← slice]
  cases geom.hasChecksum with
  | true =>
    simp only [if_true, ← Nat.mul_succ]
    exact Nat.mul_div_cancel_left _ valid.block_pos
  | false =>
    simp only [Bool.false_eq_true, if_false, Nat.add_zero]
    exact Nat.mul_div_cancel_left _ valid.block_pos

theorem inputBlocks_mul : geom.blockLen * geom.inputBlocks = geom.effectiveSliceLen := by
  have slice := sliceBlocks_mul valid
  rw [inputBlocks_eq valid, effectiveSliceLen, checksumLen, Nat.mul_add, slice]
  split
  · rw [Nat.mul_one]
  · rfl

theorem chunkBlocks_pos : 0 < geom.chunkBlocks := by
  apply Nat.pos_of_mul_pos_left (a := geom.blockLen)
  rw [chunkBlocks_mul valid]
  exact valid.chunk_pos

theorem sliceBlocks_pos : 0 < geom.sliceBlocks := by
  apply Nat.pos_of_mul_pos_left (a := geom.blockLen)
  rw [sliceBlocks_mul valid]
  exact valid.slice_pos

theorem chunkBlocks_le : geom.chunkBlocks ≤ geom.inputBlocks :=
  Nat.div_le_div_right valid.chunk_fits

/-- A block has room in its chunk. -/
theorem block_room {block : ℕ} (inside : block < geom.inputBlocks) :
    block % geom.chunkBlocks < geom.blocksIn (block / geom.chunkBlocks) := by
  have pos := chunkBlocks_pos valid
  have own := Nat.div_add_mod' block geom.chunkBlocks
  have whole := Nat.div_add_mod' geom.inputBlocks geom.chunkBlocks
  simp only [blocksIn]
  split
  case isTrue => exact Nat.mod_lt _ pos
  case isFalse last =>
    have chunk : block / geom.chunkBlocks = geom.inputBlocks / geom.chunkBlocks := by
      apply le_antisymm
      · exact Nat.div_le_div_right inside.le
      · exact not_lt.mp last
    rw [chunk] at own
    omega

/-- A chunk ends inside the buffer and before the next one. -/
theorem chunk_end {chunk : ℕ} (inside : chunk ≤ geom.inputBlocks / geom.chunkBlocks) :
    geom.blocksIn chunk ≤ geom.chunkBlocks ∧
      chunk * geom.chunkBlocks + geom.blocksIn chunk ≤ geom.inputBlocks := by
  have pos := chunkBlocks_pos valid
  have whole := Nat.div_add_mod' geom.inputBlocks geom.chunkBlocks
  simp only [blocksIn]
  split
  case isTrue early =>
    have next := Nat.mul_le_mul_right geom.chunkBlocks early
    rw [Nat.succ_mul] at next
    omega
  case isFalse last =>
    have rest := Nat.mod_lt geom.inputBlocks pos
    have chunk : chunk = geom.inputBlocks / geom.chunkBlocks := by omega
    rw [chunk]
    omega

theorem slotNumber_bounds {inputNum block : ℕ} (input : inputNum < geom.inputPackSize)
    (inside : block < geom.inputBlocks) :
    block / geom.chunkBlocks * geom.chunkBlocks * geom.inputPackSize ≤
        geom.slotNumber inputNum block ∧
      geom.slotNumber inputNum block <
        (block / geom.chunkBlocks * geom.chunkBlocks +
          geom.blocksIn (block / geom.chunkBlocks)) * geom.inputPackSize := by
  have number := slotInChunk_lt valid.interleave_pos input (block_room valid inside)
  rw [slotNumber, Nat.add_mul, Nat.mul_assoc, Nat.mul_comm (geom.blocksIn _)]
  omega

/-- Two blocks never share a number. -/
theorem slotNumber_injective {first second one other : ℕ} (firstInput : first < geom.inputPackSize)
    (secondInput : second < geom.inputPackSize) (oneInside : one < geom.inputBlocks)
    (otherInside : other < geom.inputBlocks)
    (same : geom.slotNumber first one = geom.slotNumber second other) :
    first = second ∧ one = other := by
  have apart {lowInput highInput low high : ℕ} (lowInput_lt : lowInput < geom.inputPackSize)
      (highInput_lt : highInput < geom.inputPackSize) (lowInside : low < geom.inputBlocks)
      (highInside : high < geom.inputBlocks)
      (less : low / geom.chunkBlocks < high / geom.chunkBlocks) :
      geom.slotNumber lowInput low < geom.slotNumber highInput high := by
    apply lt_of_lt_of_le (slotNumber_bounds valid lowInput_lt lowInside).2
    apply le_trans _ (slotNumber_bounds valid highInput_lt highInside).1
    apply Nat.mul_le_mul_right
    have width := (chunk_end valid (Nat.div_le_div_right
      (c := geom.chunkBlocks) lowInside.le)).1
    have next := Nat.mul_le_mul_right geom.chunkBlocks less
    rw [Nat.succ_mul] at next
    omega
  have chunk : one / geom.chunkBlocks = other / geom.chunkBlocks := by
    rcases Nat.lt_trichotomy (one / geom.chunkBlocks) (other / geom.chunkBlocks)
      with less | equal | more
    · exact absurd same (apart firstInput secondInput oneInside otherInside less).ne
    · exact equal
    · exact absurd same (apart secondInput firstInput otherInside oneInside more).ne'
  have oneRoom := block_room valid oneInside
  have otherRoom := block_room valid otherInside
  simp only [slotNumber, chunk] at same oneRoom
  obtain ⟨input, block⟩ := slotInChunk_injective valid.interleave_pos firstInput secondInput oneRoom
    otherRoom (Nat.add_left_cancel same)
  constructor
  · exact input
  · rw [← Nat.div_add_mod' one geom.chunkBlocks, chunk, block, Nat.div_add_mod']

/-- A block ends inside the buffer. -/
theorem slot_inside {inputNum block : ℕ} (input : inputNum < geom.inputPackSize)
    (inside : block < geom.inputBlocks) :
    geom.slot inputNum block + geom.blockLen ≤
      geom.inputPackSize * geom.effectiveSliceLen := by
  have above := (slotNumber_bounds valid input inside).2
  have chunk := (chunk_end valid (Nat.div_le_div_right
    (c := geom.chunkBlocks) inside.le)).2
  have number : geom.slotNumber inputNum block + 1 ≤
      geom.inputBlocks * geom.inputPackSize :=
    above.trans_le (Nat.mul_le_mul_right _ chunk)
  have bytes := Nat.mul_le_mul_left geom.blockLen number
  rw [Nat.mul_succ, ← Nat.mul_assoc, inputBlocks_mul valid, Nat.mul_comm _
    geom.inputPackSize] at bytes
  exact bytes

theorem slot_injective {first second one other : ℕ} (firstInput : first < geom.inputPackSize)
    (secondInput : second < geom.inputPackSize) (oneInside : one < geom.inputBlocks)
    (otherInside : other < geom.inputBlocks)
    (same : geom.slot first one = geom.slot second other) :
    first = second ∧ one = other :=
  slotNumber_injective valid firstInput secondInput oneInside otherInside
    (Nat.eq_of_mul_eq_mul_left valid.block_pos same)

/-! ## Addresses -/

/-- The address of a block in a chunk, from the length of the chunk. -/
theorem address_eq (inputNum chunk : ℕ) {block : ℕ} (room : block < geom.chunkBlocks) :
    geom.inputBase inputNum (geom.blockLen * geom.blocksIn chunk) +
        geom.chunkStride * chunk + geom.blockLen * block * geom.interleaveBy inputNum =
      geom.slot inputNum (chunk * geom.chunkBlocks + block) := by
  have pos := chunkBlocks_pos valid
  have quotient : (chunk * geom.chunkBlocks + block) / geom.chunkBlocks = chunk := by
    rw [Nat.mul_comm, Nat.mul_add_div pos, Nat.div_eq_of_lt room, Nat.add_zero]
  have remainder : (chunk * geom.chunkBlocks + block) % geom.chunkBlocks = block := by
    rw [Nat.mul_comm, Nat.mul_add_mod, Nat.mod_eq_of_lt room]
  simp only [slot, slotNumber, quotient, remainder, slotInChunk, inputBase, chunkStride,
    ← chunkBlocks_mul valid]
  ring

/-- The length of the last chunk, also when it is full. -/
theorem effectiveLastChunkLen_eq :
    geom.effectiveLastChunkLen = geom.blockLen *
      if geom.inputBlocks % geom.chunkBlocks = 0 then geom.chunkBlocks
      else geom.inputBlocks % geom.chunkBlocks := by
  have rest : geom.effectiveSliceLen % geom.chunkLen =
      geom.blockLen * (geom.inputBlocks % geom.chunkBlocks) := by
    rw [← inputBlocks_mul valid, ← chunkBlocks_mul valid, Nat.mul_mod_mul_left]
  rw [effectiveLastChunkLen, rest]
  by_cases full : geom.inputBlocks % geom.chunkBlocks = 0
  · rw [if_pos (by rw [full, Nat.mul_zero]), if_pos full, chunkBlocks_mul valid]
  · rw [if_neg (Nat.mul_ne_zero valid.block_pos.ne' full), if_neg full]

/-- A block at the end of a slice is in the last chunk. -/
theorem effectiveLastChunkLen_last {block : ℕ} (inside : block < geom.inputBlocks)
    (last : geom.inputBlocks ≤ (block / geom.chunkBlocks + 1) * geom.chunkBlocks) :
    geom.effectiveLastChunkLen =
      geom.blockLen * geom.blocksIn (block / geom.chunkBlocks) := by
  have pos := chunkBlocks_pos valid
  have whole := Nat.div_add_mod' geom.inputBlocks geom.chunkBlocks
  have rest := Nat.mod_lt geom.inputBlocks pos
  have below : block / geom.chunkBlocks ≤ geom.inputBlocks / geom.chunkBlocks :=
    Nat.div_le_div_right inside.le
  have room := block_room valid inside
  rw [effectiveLastChunkLen_eq valid]
  congr 1
  simp only [blocksIn] at room ⊢
  by_cases early : block / geom.chunkBlocks < geom.inputBlocks / geom.chunkBlocks
  · have next := Nat.mul_le_mul_right geom.chunkBlocks early
    have full : geom.inputBlocks % geom.chunkBlocks = 0 := by
      rw [Nat.succ_mul] at next last
      omega
    rw [if_pos full, if_pos early]
  · rw [if_neg early] at room ⊢
    rw [if_neg (by omega)]

/-- The data in a chunk fills it, or it is the whole slice and the checksum follows it. -/
theorem dataBlocks_cases :
    geom.dataChunkLen = geom.blockLen * geom.dataBlocks ∧
      (geom.dataBlocks = geom.chunkBlocks ∧ geom.chunkBlocks ≤ geom.sliceBlocks ∨
        geom.dataBlocks = geom.sliceBlocks ∧
          geom.chunkBlocks = geom.sliceBlocks + 1 ∧
          geom.inputBlocks = geom.chunkBlocks) := by
  have chunk := chunkBlocks_mul valid
  have slice := sliceBlocks_mul valid
  have input := inputBlocks_eq valid
  have fits := chunkBlocks_le valid
  simp only [dataBlocks, dataChunkLen]
  split
  case isTrue short =>
    have less : geom.sliceBlocks < geom.chunkBlocks := by
      rw [← chunk, ← slice] at short
      exact Nat.lt_of_mul_lt_mul_left short
    refine ⟨slice.symm, Or.inr ⟨rfl, ?_⟩⟩
    split at input
    · omega
    · omega
  case isFalse long =>
    refine ⟨chunk.symm, Or.inl ⟨rfl, ?_⟩⟩
    rw [← chunk, ← slice] at long
    exact Nat.le_of_mul_le_mul_left (not_lt.mp long) valid.block_pos

theorem dataBlocks_pos : 0 < geom.dataBlocks := by
  obtain ⟨-, ⟨same, -⟩ | ⟨same, -⟩⟩ := dataBlocks_cases valid
  · rw [same]
    exact chunkBlocks_pos valid
  · rw [same]
    exact sliceBlocks_pos valid

theorem fullChunks_eq : geom.sliceLen / geom.dataChunkLen = geom.fullChunks := by
  rw [fullChunks, (dataBlocks_cases valid).1, ← sliceBlocks_mul valid, Nat.mul_div_mul_left _ _ valid.block_pos]

/-- The length of a chunk that is full of data. -/
theorem fullChunkLen_eq {chunk : ℕ} (full : chunk < geom.fullChunks) :
    geom.chunkLen = geom.blockLen * geom.blocksIn chunk := by
  have early : chunk < geom.inputBlocks / geom.chunkBlocks := by
    have input := inputBlocks_eq valid
    obtain ⟨-, ⟨same, fits⟩ | ⟨same, -, whole⟩⟩ := dataBlocks_cases valid
    · rw [fullChunks, same] at full
      exact full.trans_le (Nat.div_le_div_right (by omega))
    · rw [fullChunks, same, Nat.div_self (sliceBlocks_pos valid)] at full
      rw [whole, Nat.div_self (chunkBlocks_pos valid)]
      exact full
  rw [blocksIn, if_pos early, chunkBlocks_mul valid]

/-- The length of the last chunk, when some data is in it. -/
theorem lastChunkLen_eq (some : geom.sliceBlocks % geom.dataBlocks ≠ 0) :
    geom.effectiveLastChunkLen =
      geom.blockLen * geom.blocksIn (geom.fullChunks) := by
  have input := inputBlocks_eq valid
  obtain ⟨-, ⟨same, fits⟩ | ⟨same, -⟩⟩ := dataBlocks_cases valid
  · have pos := chunkBlocks_pos valid
    have own := Nat.div_add_mod' geom.sliceBlocks geom.chunkBlocks
    have rest := Nat.mod_lt geom.sliceBlocks pos
    rw [same] at some
    rw [fullChunks, same]
    have before : geom.sliceBlocks - 1 =
        geom.sliceBlocks / geom.chunkBlocks * geom.chunkBlocks +
          (geom.sliceBlocks % geom.chunkBlocks - 1) := by omega
    have chunk : (geom.sliceBlocks - 1) / geom.chunkBlocks =
        geom.sliceBlocks / geom.chunkBlocks := by
      have small : geom.sliceBlocks % geom.chunkBlocks - 1 < geom.chunkBlocks := by omega
      rw [before, Nat.mul_comm, Nat.mul_add_div pos, Nat.div_eq_of_lt small, Nat.add_zero]
    rw [← chunk]
    apply effectiveLastChunkLen_last valid (by omega)
    rw [chunk, Nat.succ_mul]
    split at input
    · omega
    · omega
  · rw [same, Nat.mod_self] at some
    exact absurd rfl some

/-- The address of a block of the slice, from the length of its chunk. -/
theorem data_address (inputNum chunk : ℕ) {block : ℕ} (room : block < geom.dataBlocks)
    (inside : chunk * geom.dataBlocks + block < geom.sliceBlocks) :
    geom.inputBase inputNum (geom.blockLen * geom.blocksIn chunk) +
        geom.chunkStride * chunk + geom.blockLen * block * geom.interleaveBy inputNum =
      geom.slot inputNum (chunk * geom.dataBlocks + block) := by
  obtain ⟨-, ⟨same, fits⟩ | ⟨same, next, -⟩⟩ := dataBlocks_cases valid
  · rw [same] at room ⊢
    exact address_eq valid inputNum chunk room
  · have first : chunk = 0 := by
      rw [same] at inside
      by_contra more
      have one := Nat.mul_le_mul_right geom.sliceBlocks (Nat.pos_of_ne_zero more)
      omega
    have address := address_eq valid inputNum chunk (show block < geom.chunkBlocks by omega)
    rw [first, Nat.zero_mul] at address
    rw [first, Nat.zero_mul]
    exact address

end Blocks

/-- The checksum is the block behind the slice. -/
theorem gf16_checksum_ptr_eq {geom : PackedGeometry} (valid : geom.Valid)
    (kept : geom.hasChecksum = true) (inputNum : ℕ) :
    geom.gf16_checksum_ptr inputNum = geom.slot inputNum geom.sliceBlocks := by
  have pos := chunkBlocks_pos valid.blocked
  have own := Nat.div_add_mod' geom.sliceBlocks geom.chunkBlocks
  have rest := Nat.mod_lt geom.sliceBlocks pos
  have input := inputBlocks_eq valid.blocked
  rw [kept, if_pos rfl] at input
  have inside : geom.sliceBlocks < geom.inputBlocks := by omega
  have room := block_room valid.blocked inside
  have chunkEnd := (chunk_end valid.blocked (Nat.div_le_div_right (c := geom.chunkBlocks)
    inside.le)).2
  have last : geom.blocksIn (geom.sliceBlocks / geom.chunkBlocks) =
      geom.sliceBlocks % geom.chunkBlocks + 1 := by omega
  have chunks : geom.sliceLen / geom.chunkLen =
      geom.sliceBlocks / geom.chunkBlocks := by
    rw [← chunkBlocks_mul valid.blocked, ← sliceBlocks_mul valid.blocked,
      Nat.mul_div_mul_left _ _ valid.block_pos]
  have small : geom.sliceLen / geom.chunkLen < 2 ^ 32 := by
    apply lt_of_le_of_lt _ valid.chunks_small
    rw [fullChunks_eq valid.blocked, chunks]
    obtain ⟨-, ⟨same, -⟩ | ⟨same, next, -⟩⟩ := dataBlocks_cases valid.blocked
    · rw [fullChunks, same]
    · rw [next, Nat.div_eq_of_lt (Nat.lt_succ_self _)]
      exact Nat.zero_le _
  have effective : geom.sliceLen + geom.blockLen = geom.effectiveSliceLen := by
    rw [effectiveSliceLen, checksumLen, kept, if_pos rfl]
  have length : geom.effectiveLastChunkLen =
      geom.blockLen * (geom.sliceBlocks % geom.chunkBlocks + 1) := by
    rw [effectiveLastChunkLen_last valid.blocked inside (by rw [Nat.succ_mul]; omega), last]
  have address := address_eq valid.blocked inputNum (geom.sliceBlocks / geom.chunkBlocks) rest
  rw [own, last, ← length] at address
  rw [← address, gf16_checksum_ptr, Nat.mod_eq_of_lt small, chunks, effective]
  change _ + _ + _ * geom.effectiveLastChunkLen * _ +
    geom.effectiveLastChunkLen * _ - _ = _
  have tail : geom.effectiveLastChunkLen * geom.interleaveBy inputNum =
      geom.blockLen * (geom.sliceBlocks % geom.chunkBlocks) *
        geom.interleaveBy inputNum + geom.blockLen * geom.interleaveBy inputNum := by
    rw [length]
    ring
  simp only [inputBase]
  omega

end PackedGeometry

end Par3
