import Par3.Foundations.BinaryPolynomial
import Par3.Gf64

/-!
# Multiplications in the field

The multiplications of the program: shift and add over unbounded integers, four carry-less products
of halves, one carry-less product of words, eight lanes at a time, and squares by spreading bits. All
but the first fold the upper half of a product back twice.
-/
namespace Par3

open BinaryPolynomial

/-! ## JavaScript -/

namespace Par3Gen

/-- The loop of `gf64_mul`, in at most so many rounds. The first factor is never masked. -/
def mulLoop : ℕ → ℕ → ℕ → ℕ → ℕ
  | 0, _, _, result => result
  | rounds + 1, a, b, result =>
    if b ≠ 0 then
      let result := if b &&& 1 ≠ 0 then result ^^^ a else result
      let a := a <<< 1
      let a := if a &&& 0x10000000000000000 ≠ 0 then a ^^^ 0x1B else a
      mulLoop rounds a (b >>> 1) result
    else result

def gf64_mul (a b : ℕ) : ℕ := mulLoop b.size a b 0 &&& 0xFFFFFFFFFFFFFFFF

end Par3Gen

/-! ## Words -/

/-- `_mm_clmulepi64_si128` of two low words -/
def _mm_clmulepi64_si128 (a b : BitVec 64) : BitVec 128 := BitVec.ofNat 128 (clmul a.toNat b.toNat)

/-- `_mm_cvtsi128_si64` -/
def _mm_cvtsi128_si64 (a : BitVec 128) : BitVec 64 := a.setWidth 64

/-- The overflow of the upper half times the tail. -/
def R_hi (hi : BitVec 64) : BitVec 64 :=
  (((hi >>> 60) ^^^ (hi >>> 61) ^^^ (hi >>> 63)) &&& 1#64) |||
    ((((hi >>> 61) ^^^ (hi >>> 62)) &&& 1#64) <<< 1) |||
    ((((hi >>> 62) ^^^ (hi >>> 63)) &&& 1#64) <<< 2) |||
    (((hi >>> 63) &&& 1#64) <<< 3)

/-- A number times the tail, within a word. -/
def timesTail (a : BitVec 64) : BitVec 64 := (a <<< 4) ^^^ (a <<< 3) ^^^ (a <<< 1) ^^^ a

/-- The last lines of every multiplication of words. -/
def reduce (lo hi : BitVec 64) : BitVec 64 :=
  let t_lo := timesTail hi
  let t2 := timesTail (R_hi hi)
  lo ^^^ t_lo ^^^ t2

/-- `gf64_mul_reference` multiplies halves of words. -/
def gf64_mul_reference (a b : BitVec 64) : BitVec 64 :=
  let a_lo := a &&& 0xFFFFFFFF
  let a_hi := a >>> 32
  let b_lo := b &&& 0xFFFFFFFF
  let b_hi := b >>> 32
  let p00_val := _mm_cvtsi128_si64 (_mm_clmulepi64_si128 a_lo b_lo)
  let p01_val := _mm_cvtsi128_si64 (_mm_clmulepi64_si128 a_lo b_hi)
  let p10_val := _mm_cvtsi128_si64 (_mm_clmulepi64_si128 a_hi b_lo)
  let p11_val := _mm_cvtsi128_si64 (_mm_clmulepi64_si128 a_hi b_hi)
  let lo := p00_val ^^^ ((p01_val &&& 0xFFFFFFFF) <<< 32) ^^^ ((p10_val &&& 0xFFFFFFFF) <<< 32)
  let hi := (p01_val >>> 32) ^^^ (p10_val >>> 32) ^^^ p11_val
  reduce lo hi

/-- A product of words, as in the solver and in the engine. -/
def mulWords (a b : BitVec 64) : BitVec 64 :=
  let p := _mm_clmulepi64_si128 a b
  let lo := _mm_cvtsi128_si64 p
  let hi := _mm_cvtsi128_si64 (p >>> (8 * 8))
  reduce lo hi

/-- `gf64_mul` of the solver -/
def gf64_mul (a b : BitVec 64) : BitVec 64 := mulWords a b

/-- `gf64_mul_combi` of the engine -/
def gf64_mul_combi (a b : BitVec 64) : BitVec 64 := mulWords a b

/-! ## Squares -/

/-- Bits of the lower half move to the even places. -/
def spread (a : BitVec 64) : BitVec 64 :=
  let a := (a ||| (a <<< 16)) &&& 0x0000FFFF0000FFFF
  let a := (a ||| (a <<< 8)) &&& 0x00FF00FF00FF00FF
  let a := (a ||| (a <<< 4)) &&& 0x0F0F0F0F0F0F0F0F
  let a := (a ||| (a <<< 2)) &&& 0x3333333333333333
  (a ||| (a <<< 1)) &&& 0x5555555555555555

def gf64_square_one (a : BitVec 64) : BitVec 64 :=
  let lo := a &&& 0xFFFFFFFF
  let hi := a >>> 32
  reduce (spread lo) (spread hi)

/-- `gf64_square` of so many words -/
def gf64_square (out input : ℕ → BitVec 64) (N : ℕ) : ℕ → BitVec 64 :=
  (List.range N).foldl (fun out i => Function.update out i (gf64_square_one (input i))) out

/-! ## Lanes -/

/-- A register of eight lanes. -/
abbrev M512 := ℕ → BitVec 64

/-- `_mm512_set_epi64` names the highest lane first. -/
def _mm512_set_epi64 (e7 e6 e5 e4 e3 e2 e1 e0 : BitVec 64) : M512 := fun lane =>
  [e0, e1, e2, e3, e4, e5, e6, e7].getD lane 0

/-- Products of the low words of four lanes of 128 bits. -/
def _mm512_clmulepi64_epi128 (a b : M512) : M512 := fun lane =>
  let product := _mm_clmulepi64_si128 (a (lane / 2 * 2)) (b (lane / 2 * 2))
  if lane % 2 = 0 then product.setWidth 64 else (product >>> 64).setWidth 64

/-- Lanes of two registers; bit three of an index chooses the second. -/
def _mm512_permutex2var_epi64 (a : M512) (idx : List ℕ) (b : M512) : M512 := fun lane =>
  let index := idx.getD lane 0
  if index / 8 % 2 = 0 then a (index % 8) else b (index % 8)

def _mm512_setzero_si512 : M512 := fun _ => 0

/-- `gf64_reduce_mul_512`, in every lane -/
def gf64_reduce_mul_512 (lo_v hi_v : M512) : M512 := fun lane =>
  let hi := hi_v lane
  let t_lo := ((hi <<< 4) ^^^ (hi <<< 3)) ^^^ ((hi <<< 1) ^^^ hi)
  let bit0 := ((hi >>> 60) ^^^ ((hi >>> 61) ^^^ (hi >>> 63))) &&& 1#64
  let bit1 := (((hi >>> 61) ^^^ (hi >>> 62)) &&& 1#64) <<< 1
  let bit2 := (((hi >>> 62) ^^^ (hi >>> 63)) &&& 1#64) <<< 2
  let bit3 := ((hi >>> 63) &&& 1#64) <<< 3
  let R_hi := (bit0 ||| bit1) ||| (bit2 ||| bit3)
  let t2 := ((R_hi <<< 4) ^^^ (R_hi <<< 3)) ^^^ ((R_hi <<< 1) ^^^ R_hi)
  (lo_v lane ^^^ t_lo) ^^^ t2

/-- Eight products from one place on. -/
def mulBlock (a b : ℕ → BitVec 64) (i : ℕ) : M512 :=
  let va_lo := _mm512_set_epi64 0 (a (i + 3)) 0 (a (i + 2)) 0 (a (i + 1)) 0 (a (i + 0))
  let vb_lo := _mm512_set_epi64 0 (b (i + 3)) 0 (b (i + 2)) 0 (b (i + 1)) 0 (b (i + 0))
  let va_hi := _mm512_set_epi64 0 (a (i + 7)) 0 (a (i + 6)) 0 (a (i + 5)) 0 (a (i + 4))
  let vb_hi := _mm512_set_epi64 0 (b (i + 7)) 0 (b (i + 6)) 0 (b (i + 5)) 0 (b (i + 4))
  let prod_lo := _mm512_clmulepi64_epi128 va_lo vb_lo
  let prod_hi := _mm512_clmulepi64_epi128 va_hi vb_hi
  let lo_v_lo := _mm512_permutex2var_epi64 prod_lo [0, 2, 4, 6, 0, 0, 0, 0] _mm512_setzero_si512
  let hi_v_lo := _mm512_permutex2var_epi64 prod_lo [1, 3, 5, 7, 0, 0, 0, 0] _mm512_setzero_si512
  let lo_v_hi := _mm512_permutex2var_epi64 prod_hi [0, 2, 4, 6, 0, 0, 0, 0] _mm512_setzero_si512
  let hi_v_hi := _mm512_permutex2var_epi64 prod_hi [1, 3, 5, 7, 0, 0, 0, 0] _mm512_setzero_si512
  let red_lo := gf64_reduce_mul_512 lo_v_lo hi_v_lo
  let red_hi := gf64_reduce_mul_512 lo_v_hi hi_v_hi
  _mm512_permutex2var_epi64 red_lo [0, 1, 2, 3, 8, 9, 10, 11] red_hi

/-- Blocks of eight products, and the products that are left over one by one. -/
def gf64_mul_avx512 (out a b : ℕ → BitVec 64) (N : ℕ) : ℕ → BitVec 64 :=
  let LANES_PER_BLOCK := 8
  let blocks := N / LANES_PER_BLOCK
  let out := (List.range blocks).foldl (fun out bl index =>
    if bl * LANES_PER_BLOCK ≤ index ∧ index < bl * LANES_PER_BLOCK + LANES_PER_BLOCK then
      mulBlock a b (bl * LANES_PER_BLOCK) (index - bl * LANES_PER_BLOCK)
    else out index) out
  (List.range' (blocks * LANES_PER_BLOCK) (N - blocks * LANES_PER_BLOCK)).foldl (fun out i =>
    Function.update out i (gf64_mul_reference (a i) (b i))) out

/-! ## Squares in place -/

def gf64_square_vector_in_place (values : ℕ → BitVec 64) (n : ℕ) : ℕ → BitVec 64 :=
  (List.range n).foldl (fun values i => Function.update values i (gf64_square_one (values i))) values

/-- `gf64_swar_spread_512`, in every lane -/
def gf64_swar_spread_512 (x : M512) : M512 := fun lane => spread (x lane)

/-- `gf64_reduce_square_512` takes the steps of `gf64_reduce_mul_512`. -/
def gf64_reduce_square_512 (lo_v hi_v : M512) : M512 := gf64_reduce_mul_512 lo_v hi_v

/-- Eight squares from one place on. -/
def squareBlock (input : ℕ → BitVec 64) (i : ℕ) : M512 :=
  let v : M512 := fun lane => input (i + lane)
  let a_lo : M512 := fun lane => v lane &&& 0xFFFFFFFF
  let a_hi : M512 := fun lane => v lane >>> 32
  gf64_reduce_square_512 (gf64_swar_spread_512 a_lo) (gf64_swar_spread_512 a_hi)

/-- `gf64_square_avx512` over its own input, as it is called. Each block is read before it is written. -/
def gf64_square_avx512 (values : ℕ → BitVec 64) (N : ℕ) : ℕ → BitVec 64 :=
  let LANES := 8
  let blocks := N / LANES
  let values := (List.range blocks).foldl (fun values bl =>
    let result := squareBlock values (bl * LANES)
    (List.range LANES).foldl (fun values lane =>
      Function.update values (bl * LANES + lane) (result lane)) values) values
  (List.range (N - blocks * LANES)).foldl (fun values i =>
    Function.update values (blocks * LANES + i) (gf64_square_one (values (blocks * LANES + i))))
    values

end Par3
