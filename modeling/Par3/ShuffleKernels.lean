import Par3.Foundations.BlockLoops
import Par3.ShuffleProducts

/-!
# The shuffle kernels

A block is two registers: the high bytes of its words, and their low bytes. A kernel looks up the four nibbles of
every word of a block in the tables of the coefficient. Before, the words of a region are taken apart into bytes,
inside of the lanes of the registers, and afterwards they are put together again.
-/

namespace Par3

open ByteVectors BinaryField BlockLoops

namespace ShuffleTarget

variable (target : ShuffleTarget)

/-! ## Multiplication -/

def gf16_shuffle_muladd_round (tables : NibbleTables) (mem : Bytes) (_dst _src : ℕ) : Bytes :=
  let mask := set1_epi8 0x0f
  let ta := loadBlock mem _src
  let tb := loadBlock mem (_src + target.MWORD_SIZE)
  let ti := ByteVectors.and mask tb
  let tph := shuffle_epi8 tables.high0 ti
  let tpl := shuffle_epi8 tables.low0 ti
  let ti := target.SRLI4_EPI8 tb
  let (tph, tpl) :=
    if target.MWORD_SIZE = 64 then
      let tpl := ternarylogic tpl (shuffle_epi8 tables.low1 ti) (loadBlock mem (_dst + target.MWORD_SIZE)) 0x96
      let tph := ternarylogic tph (shuffle_epi8 tables.high1 ti) (loadBlock mem _dst) 0x96
      let ti := ByteVectors.and mask ta
      let ti2 := ByteVectors.and mask (srli_epi16 ta 4)
      (ternarylogic tph (shuffle_epi8 tables.high2 ti) (shuffle_epi8 tables.high3 ti2) 0x96,
        ternarylogic tpl (shuffle_epi8 tables.low2 ti) (shuffle_epi8 tables.low3 ti2) 0x96)
    else
      let tpl := ByteVectors.xor (shuffle_epi8 tables.low1 ti) tpl
      let tph := ByteVectors.xor (shuffle_epi8 tables.high1 ti) tph
      let tph := ByteVectors.xor tph (loadBlock mem _dst)
      let tpl := ByteVectors.xor tpl (loadBlock mem (_dst + target.MWORD_SIZE))
      let ti := ByteVectors.and mask ta
      let tpl := ByteVectors.xor (shuffle_epi8 tables.low2 ti) tpl
      let tph := ByteVectors.xor (shuffle_epi8 tables.high2 ti) tph
      let ti := target.SRLI4_EPI8 ta
      (ByteVectors.xor (shuffle_epi8 tables.high3 ti) tph, ByteVectors.xor (shuffle_epi8 tables.low3 ti) tpl)
  storeBlock (storeBlock mem _dst target.MWORD_SIZE tph) (_dst + target.MWORD_SIZE) target.MWORD_SIZE tpl

/-- The body of the loop of `gf16_shuffle_mul` -/
def gf16_shuffle_mul_round (tables : NibbleTables) (mem : Bytes) (_dst _src : ℕ) : Bytes :=
  let mask := set1_epi8 0x0f
  let ta := loadBlock mem _src
  let tb := loadBlock mem (_src + target.MWORD_SIZE)
  let ti := ByteVectors.and mask tb
  let tph := shuffle_epi8 tables.high0 ti
  let tpl := shuffle_epi8 tables.low0 ti
  let ti := target.SRLI4_EPI8 tb
  let (tph, tpl) :=
    if target.MWORD_SIZE = 64 then
      let ti2 := ByteVectors.and mask ta
      (ternarylogic tph (shuffle_epi8 tables.high1 ti) (shuffle_epi8 tables.high2 ti2) 0x96,
        ternarylogic tpl (shuffle_epi8 tables.low1 ti) (shuffle_epi8 tables.low2 ti2) 0x96)
    else
      let tpl := ByteVectors.xor (shuffle_epi8 tables.low1 ti) tpl
      let tph := ByteVectors.xor (shuffle_epi8 tables.high1 ti) tph
      let ti := ByteVectors.and mask ta
      (ByteVectors.xor (shuffle_epi8 tables.high2 ti) tph, ByteVectors.xor (shuffle_epi8 tables.low2 ti) tpl)
  let ti := target.SRLI4_EPI8 ta
  let tpl := ByteVectors.xor (shuffle_epi8 tables.low3 ti) tpl
  let tph := ByteVectors.xor (shuffle_epi8 tables.high3 ti) tph
  storeBlock (storeBlock mem _dst target.MWORD_SIZE tph) (_dst + target.MWORD_SIZE) target.MWORD_SIZE tpl

def gf16_shuffle_muladd (scratch mem : Bytes) (dst src len : ℕ) (val : BitVec 16) : Bytes :=
  overBlocks (target.gf16_shuffle_muladd_round (target.gf16_shuffle_setup_vec scratch val)) (2 * target.MWORD_SIZE)
    mem dst src len

def gf16_shuffle_mul (scratch mem : Bytes) (dst src len : ℕ) (val : BitVec 16) : Bytes :=
  overBlocks (target.gf16_shuffle_mul_round (target.gf16_shuffle_setup_vec scratch val)) (2 * target.MWORD_SIZE)
    mem dst src len

/-! ## Preparing and finishing -/

/-- Both registers of a block, of which the second one holds the low bytes -/
def storePair (mem : Bytes) (dst : ℕ) (first second : Bytes) : Bytes :=
  storeBlock (storeBlock mem dst target.MWORD_SIZE first) (dst + target.MWORD_SIZE) target.MWORD_SIZE second

def gf16_shuffle_prepare_block (mem : Bytes) (dst src : ℕ) : Bytes :=
  let ta := separate_low_high (loadBlock mem src)
  let tb := separate_low_high (loadBlock mem (src + target.MWORD_SIZE))
  target.storePair mem dst (unpackhi_epi64 ta tb) (unpacklo_epi64 ta tb)

/-- So many bytes, and zeros -/
def partial_load (mem : Bytes) (ptr bytes : ℕ) : Bytes := fun i => if i < bytes then mem (ptr + i) else 0

def gf16_shuffle_prepare_blocku (mem : Bytes) (dst src remaining : ℕ) : Bytes :=
  let ta :=
    if remaining &&& target.MWORD_SIZE ≠ 0 then loadBlock mem src else partial_load mem src remaining
  let ta := separate_low_high ta
  let tb :=
    if remaining ≤ target.MWORD_SIZE then setzero
    else separate_low_high (partial_load mem (src + target.MWORD_SIZE) (remaining - target.MWORD_SIZE))
  target.storePair mem dst (unpackhi_epi64 ta tb) (unpacklo_epi64 ta tb)

def gf16_shuffle_prepare (mem : Bytes) (dst src srcLen : ℕ) : Bytes :=
  let remaining := srcLen % (2 * target.MWORD_SIZE)
  let len := srcLen - remaining
  let mem := overBlocks target.gf16_shuffle_prepare_block (2 * target.MWORD_SIZE) mem dst src len
  if remaining ≠ 0 then target.gf16_shuffle_prepare_blocku mem (dst + len) (src + len) remaining else mem

def gf16_shuffle_finish_copy_block (mem : Bytes) (dst src : ℕ) : Bytes :=
  let ta := loadBlock mem src
  let tb := loadBlock mem (src + target.MWORD_SIZE)
  target.storePair mem dst (unpacklo_epi8 tb ta) (unpackhi_epi8 tb ta)

def gf16_shuffle_finish_block (mem : Bytes) (dst : ℕ) : Bytes := target.gf16_shuffle_finish_copy_block mem dst dst

def gf16_shuffle_finish (mem : Bytes) (dst len : ℕ) : Bytes :=
  overBlocks (fun mem dst _ => target.gf16_shuffle_finish_block mem dst) (2 * target.MWORD_SIZE) mem dst dst len

def gf16_shuffle_finish_copy_blocku (mem : Bytes) (dst src bytes : ℕ) : Bytes :=
  let ta := loadBlock mem src
  let tb := loadBlock mem (src + target.MWORD_SIZE)
  let a := unpacklo_epi8 tb ta
  let b := unpackhi_epi8 tb ta
  if bytes &&& target.MWORD_SIZE ≠ 0 then
    let mem := storeBlock mem dst target.MWORD_SIZE a
    let bytes := bytes ^^^ target.MWORD_SIZE
    if bytes ≠ 0 then storeBlock mem (dst + target.MWORD_SIZE) bytes b else mem
  else storeBlock mem dst bytes a

/-! ## Single words -/

/-- The word that was there, and the memory with the new one -/
def gf16_shuffleX_replace_word (mem : Bytes) (data index : ℕ) (newValue : BitVec 16) (width : ℕ) :
    BitVec 16 × Bytes :=
  let base := data + (index - index % width) * 2
  let pos := index % width
  let pos :=
    if width > 16 then
      (pos &&& 7) ||| ((pos &&& (width / 2 - 8)) <<< 1) ||| (if pos &&& (width / 2) ≠ 0 then 8 else 0)
    else pos
  let oldValue := mem (base + pos) ++ mem (base + pos + width)
  let mem := Function.update mem (base + pos + width) (newValue.extractLsb' 0 8)
  (oldValue, Function.update mem (base + pos) (newValue.extractLsb' 8 8))

end ShuffleTarget

end Par3
