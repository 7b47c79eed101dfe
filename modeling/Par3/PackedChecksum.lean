import Par3.GenericChecksum
import Par3.PackedRoundTrip
import Par3.Words

/-!
# Checked slices

The checksum of an input is packed behind its slice and takes part in the computation like every
other block. What finishing finds is the combination of the checksums, and what it adds up is the
checksum of the combination: they are the same, and a word that was changed in between tells.
-/
namespace Par3

open BinaryField Word HornerChecksum

/-- The checksum functions of the lookup kernel, whose checksum is packed as it is. -/
def lookupChecksum : ChecksumTransform where
  checksumBlock := gf16_checksum_block_generic
  checksumBlockU := gf16_checksum_blocku_generic
  checksumExp checksum count := gf16_checksum_exp_generic checksum (gf16_exp count)
  prepareChecksum checksum := write64 (List.replicate gf16_lookup_stride 0) (read64 checksum)
  inlineFinishBlock checksum := checksum

/-! ## Words of blocks -/

theorem read64_padded (buf : Buffer) (count : ℕ) (fits : buf.length + count = 8) :
    read64 (buf ++ List.replicate count 0) = read64 buf := by
  have length : (buf ++ List.replicate count (0 : UInt8)).length = 8 := by
    rw [List.length_append, List.length_replicate, fits]
  rw [read64, read64, List.take_of_length_le length.le, List.take_of_length_le (by omega),
    littleEndian_append, littleEndian_zeros, Nat.mul_zero, Nat.add_zero]

theorem gf16At_zeros (count index : ℕ) : gf16At (List.replicate count 0) index = 0 := by
  rw [gf16At, read64, List.take_replicate, littleEndian_zeros]
  exact lane_zero index

/-- A buffer of one word is cleared when its words are. -/
theorem all_zero_iff {buf : Buffer} (length : buf.length = 8) :
    (buf.all fun byte => byte = 0) = true ↔ ∀ index < 4, gf16At buf index = 0 := by
  have whole : buf.take 8 = buf := List.take_of_length_le length.le
  constructor
  · intro zeros index _
    have same : buf = List.replicate 8 0 := by
      rw [List.eq_replicate_iff]
      constructor
      · exact length
      · intro byte member
        exact of_decide_eq_true (List.all_eq_true.mp zeros byte member)
    rw [same]
    exact gf16At_zeros 8 index
  · intro zeros
    have word : read64 buf = 0 := by
      apply lane_ext
      intro index inside
      rw [lane_zero]
      exact zeros index inside
    have small : littleEndian buf < 2 ^ 64 := by
      have below := littleEndian_lt buf
      rwa [length] at below
    have value := congrArg BitVec.toNat word
    rw [read64, whole, BitVec.toNat_ofNat, Nat.mod_eq_of_lt small] at value
    have bytes := toLittleEndian_littleEndian buf
    rw [length, value] at bytes
    rw [← bytes]
    rfl

theorem gf16At_eq (buf : Buffer) (index : ℕ) :
    gf16At buf index = gf16OfNat (littleEndian (buf.take 8) / 2 ^ (16 * index)) := by
  have small : littleEndian (buf.take 8) < 2 ^ 64 := by
    apply lt_of_lt_of_le (littleEndian_lt _)
    have length : (buf.take 8).length ≤ 8 := by
      rw [List.length_take]
      exact Nat.min_le_left _ _
    exact Nat.pow_le_pow_right (by decide) length
  apply Word.ext
  apply BitVec.eq_of_toNat_eq
  simp only [gf16At, lane, read64, gf16OfNat, BitVec.extractLsb'_toNat, BitVec.toNat_ofNat,
    Nat.mod_eq_of_lt small, Nat.shiftRight_eq_div_pow]

/-- A word of the front of a block is a word of the block. -/
theorem gf16At_take {buf : Buffer} (length : buf.length = 8) {count index : ℕ} (few : count ≤ 8)
    (even : count % 2 = 0) :
    gf16At (buf.take count) index = if 2 * index + 2 ≤ count then gf16At buf index else 0 := by
  have front : (buf.take count).length = count := by
    rw [List.length_take]
    omega
  have below := littleEndian_lt (buf.take count)
  have parts := littleEndian_append (buf.take count) (buf.drop count)
  rw [List.take_append_drop, front] at parts
  rw [front, show (256 : ℕ) = 2 ^ 8 from rfl, ← pow_mul] at below
  rw [show (256 : ℕ) = 2 ^ 8 from rfl, ← pow_mul] at parts
  rw [gf16At_eq, gf16At_eq, List.take_of_length_le (show (buf.take count).length ≤ 8
    by omega), List.take_of_length_le length.le, parts]
  generalize littleEndian (buf.take count) = low at below
  split
  case isTrue within =>
    have split : 8 * count = 16 * index + (16 + (8 * count - 16 * index - 16)) := by omega
    have pos : 0 < 2 ^ (16 * index) := Nat.two_pow_pos _
    apply Word.ext
    apply BitVec.eq_of_toNat_eq
    simp only [gf16OfNat, BitVec.toNat_ofNat]
    rw [split, pow_add, Nat.mul_assoc, Nat.add_mul_div_left _ _ pos, pow_add, Nat.mul_assoc,
      Nat.add_mul_mod_self_left]
  case isFalse behind =>
    have small : low < 2 ^ (16 * index) :=
      below.trans_le (Nat.pow_le_pow_right Nat.zero_lt_two (by omega))
    rw [Nat.div_eq_of_lt small]
    rfl

/-! ## The words of a slice -/

namespace PackedGeometry

variable {geom : PackedGeometry}

/-- A 16-bit word of each block of an input, with zeros behind the input. -/
def sliceWords (geom : PackedGeometry) (src : Buffer) (index block : ℕ) : Gf16 :=
  gf16At (geom.paddedBlock src block) index

section Words

variable (stride : geom.blockLen = gf16_lookup_stride)

include stride

theorem gf16At_srcBlock (src : Buffer) (index block : ℕ) :
    gf16At (geom.srcBlock src block) index = geom.sliceWords src index block := by
  have length := @srcBlock_length geom src block
  rw [stride, gf16_lookup_stride] at length
  rw [sliceWords, paddedBlock, gf16At, gf16At, read64_padded]
  rw [stride, gf16_lookup_stride]
  omega

/-- Words behind the input are zero. -/
theorem sliceWords_behind (src : Buffer) {index block : ℕ}
    (behind : src.length ≤ gf16_lookup_stride * block + 2 * index) :
    geom.sliceWords src index block = 0 := by
  have length := @srcBlock_length geom src block
  rw [stride, gf16_lookup_stride] at length
  rw [gf16_lookup_stride] at behind
  rw [← gf16At_srcBlock stride, gf16At_eq]
  have small : littleEndian ((geom.srcBlock src block).take 8) < 2 ^ (16 * index) := by
    apply lt_of_lt_of_le (littleEndian_lt _)
    rw [show (256 : ℕ) = 2 ^ 8 from rfl, ← pow_mul]
    apply Nat.pow_le_pow_right Nat.zero_lt_two
    rw [List.length_take]
    omega
  rw [Nat.div_eq_of_lt small]
  rfl

/-- The checksum takes the words of the blocks of the input. -/
theorem gf16At_checkBlocks (valid : geom.Valid) (kept : geom.hasChecksum = true)
    (src : Buffer) {start stop : ℕ} (ordered : start ≤ stop) (data : stop ≤ geom.srcBlocks src)
    {checksum : Buffer} (length : checksum.length = 8) {index : ℕ} (inside : index < 4) :
    (geom.checkBlocks lookupChecksum src start stop checksum).length = 8 ∧
      gf16At (geom.checkBlocks lookupChecksum src start stop checksum) index =
        take root (geom.sliceWords src index) start stop (gf16At checksum index) := by
  induction stop, ordered using Nat.le_induction with
  | base =>
    rw [take_self, checkBlocks, Nat.sub_self]
    exact ⟨length, rfl⟩
  | succ stop ordered ih =>
    obtain ⟨long, words⟩ := ih (by omega)
    have own := (dataBlock_iff src valid stop).mpr (by omega)
    have one : stop + 1 - stop = 1 := by omega
    have short := @srcBlock_length geom src stop
    rw [stride, gf16_lookup_stride] at short
    have next : geom.checkBlocks lookupChecksum src start (stop + 1) checksum =
        gf16_checksum_blocku_generic (geom.srcBlock src stop)
          (geom.checkBlocks lookupChecksum src start stop checksum) := by
      rw [← checkBlocks_append lookupChecksum src ordered (Nat.le_succ stop)]
      conv_lhs => rw [checkBlocks, Nat.succ_eq_add_one, one, List.range'_one, List.foldl_cons,
        List.foldl_nil, checkBlock, if_pos kept]
      split
      · rfl
      · rfl
    rw [next]
    constructor
    · rw [blocku_generic_length long.ge, long]
    · rw [gf16At_blocku (by omega) _ inside, words, gf16At_srcBlock stride,
        take_succ root _ ordered]

omit stride in
theorem gf16At_skip (checksum : Buffer) (count : ℕ) {index : ℕ} (inside : index < 4) :
    gf16At (lookupChecksum.checksumExp checksum (count % 65535)) index =
      root ^ count * gf16At checksum index := by
  have small : count % 65535 < 2 ^ 16 := by omega
  change gf16At (gf16_checksum_exp_generic checksum (gf16_exp (count % 65535))) index = _
  rw [gf16At_exp _ _ inside, gf16_exp_eq small, pow_mod_period gf16_root_order]

omit stride in
/-- Blocks behind the input are skipped, whatever their number. -/
theorem gf16At_completed (valid : geom.Valid) (kept : geom.hasChecksum = true) (src : Buffer)
    (fits : src.length ≤ geom.sliceLen) (checksum : Buffer) {index : ℕ} (inside : index < 4) :
    gf16At (geom.completed lookupChecksum src checksum) index =
      root ^ (geom.sliceBlocks - geom.srcBlocks src) * gf16At checksum index := by
  have blocks := srcBlocks_le src valid fits
  have ends := srcBlocks_le_end src valid fits
  have last : finalChunkEnd geom src ≤ geom.sliceBlocks := Nat.min_le_left _ _
  rw [completed, if_pos kept, skipTail]
  by_cases cut : src.length % geom.dataChunkLen ≠ 0
  · have count : geom.sliceBlocks - finalChunkEnd geom src +
        (finalChunkEnd geom src - geom.srcBlocks src) =
          geom.sliceBlocks - geom.srcBlocks src := by omega
    simp only [if_pos cut]
    split
    · rw [gf16At_skip _ _ inside, gf16At_skip _ _ inside, ← mul_assoc, ← pow_add, count]
    · have same : finalChunkEnd geom src = geom.sliceBlocks := by omega
      rw [gf16At_skip _ _ inside, same]
  · simp only [if_neg cut]
    split
    · rw [gf16At_skip _ _ inside]
    · have none : geom.sliceBlocks - geom.srcBlocks src = 0 := by omega
      rw [none, pow_zero, one_mul]

/-- The checksum behind a slice. -/
theorem gf16At_checksum (valid : geom.Valid) (kept : geom.hasChecksum = true) (src : Buffer)
    (fits : src.length ≤ geom.sliceLen) {index : ℕ} (inside : index < 4) :
    gf16At (geom.completed lookupChecksum src (geom.checkBlocks lookupChecksum src 0
        (geom.srcBlocks src) (List.replicate gf16_lookup_stride 0))) index =
      take root (geom.sliceWords src index) 0 geom.sliceBlocks 0 := by
  have blocks := srcBlocks_le src valid fits
  have taken := (gf16At_checkBlocks stride valid kept src (Nat.zero_le _) le_rfl
    (show (List.replicate gf16_lookup_stride (0 : UInt8)).length = 8 from rfl) inside).2
  rw [gf16At_zeros] at taken
  rw [gf16At_completed valid kept src fits _ inside, taken,
    ← take_append root _ (Nat.zero_le _) blocks, take_zeros root blocks]
  intro block behind _
  apply sliceWords_behind stride src
  have data := mt (dataBlock_iff src valid block).mp (by omega)
  rw [DataBlock, stride] at data
  omega

end Words

end PackedGeometry

end Par3
