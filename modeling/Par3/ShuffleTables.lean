import Par3.Foundations.ByteVectors
import Par3.Gf16

/-!
# Tables of the shuffle kernels

A kernel multiplies by one coefficient. A word has four nibbles, and for each of them there is a table of
the low bytes and a table of the high bytes of the sixteen products. The tables of the lowest nibble are
computed in words, and the tables of every other nibble from those before them, by multiplying sixteen
products by sixteen at once. What leaves a product is looked up in a table of the polynomial, of which
only low bytes are kept: the high byte of a reduction is the nibble itself, moved up.
-/

namespace Par3

open ByteVectors BinaryField Word

/-- What the kernels are compiled for. -/
structure ShuffleTarget where
  MWORD_SIZE : ℕ
  avx : Bool
  xop : Bool
  known : MWORD_SIZE ∈ [16, 32, 64]

namespace ShuffleTarget

variable (target : ShuffleTarget)

/-! ## The first products -/

/-- Both words of a double word are doubled. -/
def GF16_MULTBY_TWO_X2 (p : BitVec 32) : BitVec 32 :=
  p <<< 1 ^^^ (((0x1100b : BitVec 32) ^^^ ((0x1100b &&& 0xffff) <<< 16)) &&& -(p >>> 31))

def initial_mul_vector (val : BitVec 16) : Bytes × Bytes :=
  let val1 := val.setWidth 32 <<< 16
  let val2 := val1 ||| val.setWidth 32
  let val2 := GF16_MULTBY_TWO_X2 val2
  let tmp := cvtsi32 val1
  let prod :=
    if target.avx ∨ target.MWORD_SIZE ≥ 32 then insert_epi32 tmp (val2 ^^^ val1) 1
    else unpacklo_epi32 tmp (cvtsi32 (val2 ^^^ val1))
  (prod, set1_epi32 (GF16_MULTBY_TWO_X2 val2))

/-- The products by the numbers from zero on, and by those from eight on. -/
def shuf0_vector (val : BitVec 16) : Bytes × Bytes :=
  let (tmp, vval4) := target.initial_mul_vector val
  let prod0 := unpacklo_epi64 tmp (xor tmp vval4)
  let poly := and (set1_epi16 0x100b) (cmpgt_epi16 setzero vval4)
  let prod8 :=
    if target.MWORD_SIZE = 64 then ternarylogic (add_epi16 vval4 vval4) poly prod0 0x96
    else xor (add_epi16 vval4 vval4) (xor prod0 poly)
  (prod0, prod8)

/-! ## Bytes of words -/

/-- The low bytes of the words of a lane, and then the high bytes. -/
def lowHigh : Bytes := fun i =>
  BitVec.ofNat 8 ([0, 2, 4, 6, 8, 10, 12, 14, 1, 3, 5, 7, 9, 11, 13, 15].getD (i % 16) 0)

def separate_low_high (data : Bytes) : Bytes := shuffle_epi8 data lowHigh

/-- `_MM_SRLI4_EPI8` -/
def SRLI4_EPI8 (v : Bytes) : Bytes :=
  if target.MWORD_SIZE = 16 ∧ target.xop then fun i => v i >>> 4 else and (srli_epi16 v 4) (set1_epi8 0xf)

/-- `_MM_SLLI4_EPI8` -/
def SLLI4_EPI8 (v : Bytes) : Bytes :=
  if target.MWORD_SIZE = 16 ∧ target.xop then fun i => v i <<< 4 else slli_epi16 (and v (set1_epi8 0xf)) 4

/-! ## The polynomial -/

/-- `gf16_shuffle_init_x86` builds its table for polynomials of one form. -/
def gf16_shuffle_init_x86 (polynomial : ℕ) : Option Bytes :=
  if polynomial ||| 0x1f ≠ 0x1101f then none
  else
    let _poly (i : ℕ) : BitVec 16 :=
      let p := if i.testBit 3 then polynomial <<< 3 else 0
      let p := if i.testBit 2 then p ^^^ polynomial <<< 2 else p
      let p := if i.testBit 1 then p ^^^ polynomial <<< 1 else p
      let p := if i.testBit 0 then p ^^^ polynomial else p
      BitVec.ofNat 16 (p &&& 0xffff)
    let tmp1 := shuffle_epi8 (ofWords _poly) lowHigh
    let tmp2 := shuffle_epi8 (ofWords fun i => _poly (8 + i)) lowHigh
    some (unpacklo_epi64 tmp1 tmp2)

/-! ## Multiplication by sixteen -/

/-- Sixteen products, low and high bytes apart. -/
def mul16_vec128 (mulLo srcLo srcHi : Bytes) : Bytes × Bytes :=
  let ti := target.SRLI4_EPI8 srcHi
  let sh := xor srcHi ti
  let tl := target.SLLI4_EPI8 srcLo
  let th := target.SLLI4_EPI8 sh
  let th := or th (target.SRLI4_EPI8 srcLo)
  (xor tl (shuffle_epi8 mulLo ti), th)

/-- Sixteen products, the high bytes in one lane and the low bytes in the next. -/
def mul16_vec256 (poly src : Bytes) : Bytes :=
  let prodHi := andnot (set1_epi8 0xf) src
  let idx := srli_epi16 prodHi 4
  let merge := inserti128 prodHi (shuffle_epi8 poly idx)
  let src :=
    if target.MWORD_SIZE = 64 then
      ternarylogic (extract_top128 idx) (set1_epi8 0xf) (slli_epi16 src 4) 0xF2
    else or (slli_epi16 (and (set1_epi8 0xf) src) 4) (extract_top128 idx)
  xor src merge

/-! ## All tables -/

def BCAST_HI (v : Bytes) : Bytes :=
  if target.MWORD_SIZE = 64 then shuffle_i32x4 v 1 else permute4x64 v [2, 3, 2, 3]

def BCAST_LO (v : Bytes) : Bytes :=
  if target.MWORD_SIZE = 64 then shuffle_i32x4 v 0 else inserti128 v v

/-- The tables of low bytes and of high bytes, for every nibble -/
structure NibbleTables where
  low0 : Bytes
  high0 : Bytes
  low1 : Bytes
  high1 : Bytes
  low2 : Bytes
  high2 : Bytes
  low3 : Bytes
  high3 : Bytes

def gf16_shuffle_setup_vec (scratch : Bytes) (val : BitVec 16) : NibbleTables :=
  let (pd0, pd1) := target.shuf0_vector val
  if target.MWORD_SIZE ≥ 32 then
    let prod := inserti128 pd0 pd1
    let prod := shuffle_epi8 prod lowHigh
    let prod0 := permute4x64 prod [1, 3, 0, 2]
    let prod1 := target.mul16_vec256 scratch prod0
    let prod2 := target.mul16_vec256 scratch prod1
    let prod3 := target.mul16_vec256 scratch prod2
    ⟨target.BCAST_HI prod0, target.BCAST_LO prod0, target.BCAST_HI prod1, target.BCAST_LO prod1,
      target.BCAST_HI prod2, target.BCAST_LO prod2, target.BCAST_HI prod3, target.BCAST_LO prod3⟩
  else
    let pd0 := shuffle_epi8 pd0 lowHigh
    let pd1 := shuffle_epi8 pd1 lowHigh
    let (low0, high0) := (unpacklo_epi64 pd0 pd1, unpackhi_epi64 pd0 pd1)
    let (low1, high1) := target.mul16_vec128 scratch low0 high0
    let (low2, high2) := target.mul16_vec128 scratch low1 high1
    let (low3, high3) := target.mul16_vec128 scratch low2 high2
    ⟨low0, high0, low1, high1, low2, high2, low3, high3⟩

end ShuffleTarget

end Par3
