import Par3.Foundations.RegionLoops
import Par3.Gf64Mul
import Par3.RegionKernels

/-!
# Vector kernels for regions

Every instruction set has five kernels for regions, and so does the scalar code. Registers hold the
products of two or of four words in their low lanes; blocks of words are taken together, and the words
that are left are taken one by one. The kernels for many outputs visit the outputs in chunks and leave
out those whose coefficient is zero.

The pointers do not overlap, and words are fetched ahead without being used.
-/

namespace Par3

open RegionLoops Interleaving

/-! ## Registers -/

/-- A register of two lanes. -/
abbrev M128 := ℕ → BitVec 64

/-- A register of four lanes. -/
abbrev M256 := ℕ → BitVec 64

/-- `_mm_clmulepi64_si128` with the immediate zero, lane by lane -/
def _mm_clmulepi64_lanes (a b : M128) : M128 := _mm512_clmulepi64_epi128 a b

def _mm256_clmulepi64_epi128 (a b : M256) : M256 := _mm512_clmulepi64_epi128 a b

/-- `_mm_set_epi32` of one value in the lowest place -/
def _mm_set_epi32_low (value : BitVec 64) : M128 := fun lane => if lane = 0 then value &&& 0xFFFFFFFF else 0

def _mm_unpacklo_epi64 (a b : M128) : M128 := fun lane => if lane = 0 then a 0 else b 0

def _mm_unpackhi_epi64 (a b : M128) : M128 := fun lane => if lane = 0 then a 1 else b 1

def _mm256_setr_epi64x (e0 e1 e2 e3 : BitVec 64) : M256 := fun lane => [e0, e1, e2, e3].getD lane 0

def _mm256_set1_epi64x (value : BitVec 64) : M256 := fun _ => value

def _mm256_extracti128_si256 (a : M256) (half : ℕ) : M128 := fun lane => a (2 * half + lane)

def _mm512_set1_epi64 (value : BitVec 64) : M512 := fun _ => value

/-- Consecutive words go to the lanes of the mask. -/
def _mm512_maskz_expandloadu_epi64 (mask : ℕ) (input : Words) (i : ℕ) : M512 := fun lane =>
  if mask.testBit lane then
    (input (i + ((List.range lane).filter fun below => mask.testBit below).length)).bits
  else 0

/-- The lowest lanes are stored, and no others. -/
def storeLanes (out : Words) (i count : ℕ) (lanes : ℕ → BitVec 64) : Words := fun word =>
  if i ≤ word ∧ word < i + count then ⟨lanes (word - i)⟩ else out word

/-- The lowest lanes are added to what is loaded from their words. -/
def xorLanes (out : Words) (i count : ℕ) (lanes : ℕ → BitVec 64) : Words :=
  storeLanes out i count fun lane => (out (i + lane)).bits ^^^ lanes lane

/-! ## Scalar kernels -/

/-- `gf64_mul_reference` on elements -/
def mulReference (a b : Gf64) : Gf64 := ⟨gf64_mul_reference a.bits b.bits⟩

/-- The products of a word and all coefficients. -/
def wordSum (input : Gf64) (coeff : ℕ → Gf64) (n_coeff : ℕ) : Gf64 :=
  (List.range n_coeff).foldl (fun sum c => sum + mulReference input (coeff c)) 0

/-- `outs[k][i] ^= value` -/
def addWord (outs : ℕ → Words) (k i : ℕ) (value : Gf64) : ℕ → Words :=
  Function.update outs k (Function.update (outs k) i (outs k i + value))

def gf64_region_mul_scalar_arr (out input : Words) (coeff : ℕ → Gf64) (len n_coeff : ℕ) : Words :=
  (List.range len).foldl (fun out i =>
    Function.update out i (mulReference (input i) (coeff (i % n_coeff)))) out

def gf64_region_muladd_scalar_arr (out input : Words) (coeff : ℕ → Gf64) (len n_coeff : ℕ) : Words :=
  (List.range len).foldl (fun out i =>
    Function.update out i (out i + wordSum (input i) coeff n_coeff)) out

/-- One call of a multiply-add for each input, with the pointer to its coefficient. -/
def coupledMuladd (muladd : Words → Words → (ℕ → Gf64) → ℕ → ℕ → Words) (out : Words)
    (in_blocks : ℕ → Words) (coeff_blocks : ℕ → Gf64) (len G : ℕ) : Words :=
  (List.range G).foldl (fun out g => muladd out (in_blocks g) (fun c => coeff_blocks (g + c)) len 1) out

def gf64_region_coupled_muladd_scalar_arr :=
  coupledMuladd gf64_region_muladd_scalar_arr

/-- A word of the input goes to some of the outputs. -/
def fusedWord (ks : List ℕ) (input : Words) (starts : ℕ → Gf64) (outs : ℕ → Words) (i : ℕ) : ℕ → Words :=
  ks.foldl (fun outs k => addWord outs k i (mulReference (input i) (starts k))) outs

def gf64_region_fused_output_muladd_scalar_arr (outs : ℕ → Words) (input : Words)
    (coeff_block_starts : ℕ → Gf64) (len K : ℕ) : ℕ → Words :=
  (List.range len).foldl (fusedWord (List.range K) input coeff_block_starts) outs

def gf64_region_2d_muladd_scalar_arr (outs : ℕ → Words) (K : ℕ) (in_blocks : ℕ → Words) (G : ℕ)
    (coeff_block_2d : ℕ → Gf64) (K_stride len : ℕ) : ℕ → Words :=
  (List.range G).foldl (fun outs g => (List.range len).foldl
    (fusedWord (List.range K) (in_blocks g) fun k => coeff_block_2d (k * K_stride + g)) outs) outs

/-! ## Loops of the vector kernels -/

/-- Blocks of the input go to some of the outputs, and then its last words. -/
def fusedRegion (width : ℕ) (addBlock : Words → Words → Gf64 → ℕ → Words) (ks : List ℕ) (input : Words)
    (starts : ℕ → Gf64) (len : ℕ) : (ℕ → Words) → ℕ → Words :=
  blocksThenWords width (fun outs i => ks.foldl (fun outs k =>
    Function.update outs k (addBlock (outs k) input (starts k) i)) outs) (fusedWord ks input starts) len

/-- The outputs of a chunk whose coefficient is not zero. -/
def active_k (coeff_block_starts : ℕ → Gf64) (k_base chunk_K : ℕ) : List ℕ :=
  (List.range chunk_K).foldl (fun active k =>
    if coeff_block_starts (k_base + k) ≠ 0 then active ++ [k_base + k] else active) []

/-- Chunks of 256 outputs. -/
def fusedChunks (width : ℕ) (addBlock : Words → Words → Gf64 → ℕ → Words) (outs : ℕ → Words)
    (input : Words) (coeff_block_starts : ℕ → Gf64) (len K : ℕ) : ℕ → Words :=
  if K = 0 ∨ len = 0 then outs
  else
    (strided 0 K 256).foldl (fun outs k_base =>
      let chunk_K := K - k_base
      let chunk_K := if chunk_K > 256 then 256 else chunk_K
      let active := active_k coeff_block_starts k_base chunk_K
      if active.length = 0 then outs
      else fusedRegion width addBlock active input coeff_block_starts len outs) outs

/-- One input after the other, each for all outputs. -/
def twoDimensional (width : ℕ) (addBlock : Words → Words → Gf64 → ℕ → Words) (outs : ℕ → Words) (K : ℕ)
    (in_blocks : ℕ → Words) (G : ℕ) (coeff_block_2d : ℕ → Gf64) (K_stride len : ℕ) : ℕ → Words :=
  (List.range G).foldl (fun outs g => fusedRegion width addBlock (List.range K) (in_blocks g)
    (fun k => coeff_block_2d (k * K_stride + g)) len outs) outs

/-! ## SSSE3 -/

/-- The packed reduction, in every lane -/
def reducePacked (lo hi : M128) : M128 := fun lane =>
  let lo := lo lane
  let hi := hi lane
  let t_lo := ((hi <<< 4) ^^^ (hi <<< 3)) ^^^ ((hi <<< 1) ^^^ hi)
  let bit0 := (((hi >>> 60) ^^^ (hi >>> 61)) ^^^ (hi >>> 63)) &&& 1#64
  let bit1 := (((hi >>> 61) ^^^ (hi >>> 62)) &&& 1#64) <<< 1
  let bit2 := (((hi >>> 62) ^^^ (hi >>> 63)) &&& 1#64) <<< 2
  let bit3 := ((hi >>> 63) &&& 1#64) <<< 3
  let R_hi := (bit0 ||| bit1) ||| (bit2 ||| bit3)
  let t2 := ((R_hi <<< 4) ^^^ (R_hi <<< 3)) ^^^ ((R_hi <<< 1) ^^^ R_hi)
  lo ^^^ (t_lo ^^^ t2)

/-- Two words times one coefficient. -/
def gf64_clmul_reduce_64x64_packed (a0 a1 b : BitVec 64) : BitVec 64 × BitVec 64 :=
  let a0_lo := _mm_set_epi32_low a0
  let a0_hi := _mm_set_epi32_low (a0 >>> 32)
  let a1_lo := _mm_set_epi32_low a1
  let a1_hi := _mm_set_epi32_low (a1 >>> 32)
  let b_lo := _mm_set_epi32_low b
  let b_hi := _mm_set_epi32_low (b >>> 32)
  let p00 := _mm_unpacklo_epi64 (_mm_clmulepi64_lanes a0_lo b_lo) (_mm_clmulepi64_lanes a1_lo b_lo)
  let p01 := _mm_unpacklo_epi64 (_mm_clmulepi64_lanes a0_lo b_hi) (_mm_clmulepi64_lanes a1_lo b_hi)
  let p10 := _mm_unpacklo_epi64 (_mm_clmulepi64_lanes a0_hi b_lo) (_mm_clmulepi64_lanes a1_hi b_lo)
  let p11 := _mm_unpacklo_epi64 (_mm_clmulepi64_lanes a0_hi b_hi) (_mm_clmulepi64_lanes a1_hi b_hi)
  let lo : M128 := fun lane => p00 lane ^^^ ((p01 lane <<< 32) ^^^ (p10 lane <<< 32))
  let hi : M128 := fun lane => (p01 lane >>> 32) ^^^ ((p10 lane >>> 32) ^^^ p11 lane)
  let result := reducePacked lo hi
  (result 0, result 1)

namespace Ssse3

/-- Two words of the output, written one after the other. -/
def writePair (out : Words) (i : ℕ) (r0 r1 : Gf64) : Words :=
  Function.update (Function.update out (i + 0) r0) (i + 1) r1

def addBlock (out input : Words) (coeff : Gf64) (i : ℕ) : Words :=
  let r := gf64_clmul_reduce_64x64_packed (input (i + 0)).bits (input (i + 1)).bits coeff.bits
  writePair out i (out (i + 0) + ⟨r.1⟩) (out (i + 1) + ⟨r.2⟩)

def gf64_region_mul_ssse3_arr (out input : Words) (coeff : ℕ → Gf64) (len n_coeff : ℕ) : Words :=
  if n_coeff = 1 then
    let c0 := coeff 0
    blocksThenWords 2 (fun out i =>
      let r := gf64_clmul_reduce_64x64_packed (input (i + 0)).bits (input (i + 1)).bits c0.bits
      writePair out i ⟨r.1⟩ ⟨r.2⟩) (fun out i =>
        Function.update out i (mulReference (input i) c0)) len out
  else
    blocksThenWords 2 (fun out i =>
      let r := gf64_clmul_reduce_64x64_packed (input (i + 0)).bits (input (i + 1)).bits
        (coeff ((i + 0) % n_coeff)).bits
      writePair out i ⟨r.1⟩ (mulReference (input (i + 1)) (coeff ((i + 1) % n_coeff)))) (fun out i =>
        Function.update out i (mulReference (input i) (coeff (i % n_coeff)))) len out

def gf64_region_muladd_ssse3_arr (out input : Words) (coeff : ℕ → Gf64) (len n_coeff : ℕ) : Words :=
  if n_coeff = 1 then
    let c0 := coeff 0
    blocksThenWords 2 (fun out i => addBlock out input c0 i) (fun out i =>
      Function.update out i (out i + mulReference (input i) c0)) len out
  else
    blocksThenWords 2 (fun out i =>
      let acc := (List.range n_coeff).foldl (fun (acc : Gf64 × Gf64) c =>
        let r := gf64_clmul_reduce_64x64_packed (input (i + 0)).bits (input (i + 1)).bits (coeff c).bits
        (acc.1 + ⟨r.1⟩, acc.2 + ⟨r.2⟩)) (0, 0)
      writePair out i (out (i + 0) + acc.1) (out (i + 1) + acc.2)) (fun out i =>
        Function.update out i (out i + wordSum (input i) coeff n_coeff)) len out

def gf64_region_coupled_muladd_ssse3_arr := coupledMuladd gf64_region_muladd_ssse3_arr

/-- There are no chunks, and no output is left out. -/
def gf64_region_fused_output_muladd_ssse3_arr (outs : ℕ → Words) (input : Words)
    (coeff_block_starts : ℕ → Gf64) (len K : ℕ) : ℕ → Words :=
  fusedRegion 2 addBlock (List.range K) input coeff_block_starts len outs

def gf64_region_2d_muladd_ssse3_arr := twoDimensional 2 addBlock

end Ssse3

/-! ## AVX2 -/

namespace Avx2

def gf64_reduce_ymm (lo_vec hi_vec : M256) : M256 := gf64_reduce_mul_512 lo_vec hi_vec

/-- The low and the high halves of two products. -/
def gf64_split_prod_ymm (prod : M256) : M256 × M256 :=
  let prod_hi128 := _mm256_extracti128_si256 prod 1
  (_mm_unpacklo_epi64 prod prod_hi128, _mm_unpackhi_epi64 prod prod_hi128)

/-- Two words times the coefficients of their lanes, in halves. -/
def splitPair (input : Words) (i : ℕ) (coeffs : M256) : M256 × M256 :=
  gf64_split_prod_ymm (_mm256_clmulepi64_epi128
    (_mm256_setr_epi64x (input (i + 0)).bits 0 (input (i + 1)).bits 0) coeffs)

def productPair (input : Words) (i : ℕ) (coeffs : M256) : M256 :=
  let (lo_vec, hi_vec) := splitPair input i coeffs
  gf64_reduce_ymm lo_vec hi_vec

/-- Products with all coefficients are added before they are reduced. -/
def sumPair (input : Words) (coeff : ℕ → Gf64) (n_coeff i : ℕ) : M256 :=
  let (acc_lo, acc_hi) := (List.range n_coeff).foldl (fun (acc : M256 × M256) c =>
    let (lo_vec, hi_vec) := splitPair input i (_mm256_set1_epi64x (coeff c).bits)
    (fun lane => acc.1 lane ^^^ lo_vec lane, fun lane => acc.2 lane ^^^ hi_vec lane))
    (fun _ => 0, fun _ => 0)
  gf64_reduce_ymm acc_lo acc_hi

def addBlock (out input : Words) (coeff : Gf64) (i : ℕ) : Words :=
  let out := xorLanes out (i + 0) 2 (productPair input (i + 0) (_mm256_set1_epi64x coeff.bits))
  xorLanes out (i + 2) 2 (productPair input (i + 2) (_mm256_set1_epi64x coeff.bits))

def gf64_region_mul_avx2_arr (out input : Words) (coeff : ℕ → Gf64) (len n_coeff : ℕ) : Words :=
  if n_coeff = 1 then
    let c0 := coeff 0
    let coeff_broadcast := _mm256_set1_epi64x c0.bits
    blocksThenWords 4 (fun out i =>
      let out := storeLanes out (i + 0) 2 (productPair input (i + 0) coeff_broadcast)
      storeLanes out (i + 2) 2 (productPair input (i + 2) coeff_broadcast)) (fun out i =>
        Function.update out i (mulReference (input i) c0)) len out
  else
    blocksThenWords 4 (fun out i =>
      let coeff01 := _mm256_setr_epi64x (coeff ((i + 0) % n_coeff)).bits 0
        (coeff ((i + 1) % n_coeff)).bits 0
      let out := storeLanes out (i + 0) 2 (productPair input (i + 0) coeff01)
      let coeff23 := _mm256_setr_epi64x (coeff ((i + 2) % n_coeff)).bits 0
        (coeff ((i + 3) % n_coeff)).bits 0
      storeLanes out (i + 2) 2 (productPair input (i + 2) coeff23)) (fun out i =>
        Function.update out i (mulReference (input i) (coeff (i % n_coeff)))) len out

/-- With one coefficient there are eight pairs in a block, whose outputs are loaded before any is
stored. -/
def gf64_region_muladd_avx2_arr (out input : Words) (coeff : ℕ → Gf64) (len n_coeff : ℕ) : Words :=
  if n_coeff = 1 then
    let c0 := coeff 0
    let coeff_broadcast := _mm256_set1_epi64x c0.bits
    blocksThenWords 16 (fun prev i =>
      (List.range 8).foldl (fun out stream =>
        storeLanes out (i + stream * 2) 2 fun lane => (prev (i + stream * 2 + lane)).bits ^^^
          productPair input (i + stream * 2) coeff_broadcast lane) prev) (fun out i =>
        Function.update out i (out i + mulReference (input i) c0)) len out
  else
    blocksThenWords 4 (fun out i =>
      let out := xorLanes out (i + 0) 2 (sumPair input coeff n_coeff (i + 0))
      xorLanes out (i + 2) 2 (sumPair input coeff n_coeff (i + 2))) (fun out i =>
        Function.update out i (out i + wordSum (input i) coeff n_coeff)) len out

def gf64_region_coupled_muladd_avx2_arr := coupledMuladd gf64_region_muladd_avx2_arr

def gf64_region_fused_output_muladd_avx2_arr := fusedChunks 4 addBlock

def gf64_region_2d_muladd_avx2_arr := twoDimensional 4 addBlock

end Avx2

/-! ## AVX-512 -/

namespace Avx512

def gf64_reduce_512 (lo_vec hi_vec : M512) : M512 := gf64_reduce_mul_512 lo_vec hi_vec

/-- The low and the high halves of four products. -/
def gf64_split_prod_512 (prod : M512) : M512 × M512 :=
  (_mm512_permutex2var_epi64 prod [0, 2, 4, 6, 0, 0, 0, 0] _mm512_setzero_si512,
    _mm512_permutex2var_epi64 prod [1, 3, 5, 7, 0, 0, 0, 0] _mm512_setzero_si512)

def productQuad (in_vec coeffs : M512) : M512 :=
  let (lo_v, hi_v) := gf64_split_prod_512 (_mm512_clmulepi64_epi128 in_vec coeffs)
  gf64_reduce_512 lo_v hi_v

/-- Products with all coefficients are added before they are reduced. -/
def sumQuad (in_vec : M512) (coeff : ℕ → Gf64) (n_coeff : ℕ) : M512 :=
  let (acc_lo, acc_hi) := (List.range n_coeff).foldl (fun (acc : M512 × M512) c =>
    let (lo_v, hi_v) := gf64_split_prod_512
      (_mm512_clmulepi64_epi128 in_vec (_mm512_set1_epi64 (coeff c).bits))
    (fun lane => acc.1 lane ^^^ lo_v lane, fun lane => acc.2 lane ^^^ hi_v lane))
    (fun _ => 0, fun _ => 0)
  gf64_reduce_512 acc_lo acc_hi

def addBlock (out input : Words) (coeff : Gf64) (i : ℕ) : Words :=
  xorLanes out i 4 (productQuad (_mm512_maskz_expandloadu_epi64 0x55 input i)
    (_mm512_set1_epi64 coeff.bits))

def gf64_region_mul_avx512_arr (out input : Words) (coeff : ℕ → Gf64) (len n_coeff : ℕ) : Words :=
  if n_coeff = 1 then
    let c0 := coeff 0
    let coeff_broadcast := _mm512_set1_epi64 c0.bits
    blocksThenWords 8 (fun out i =>
      let out := storeLanes out i 4
        (productQuad (_mm512_maskz_expandloadu_epi64 0x55 input i) coeff_broadcast)
      storeLanes out (i + 4) 4
        (productQuad (_mm512_maskz_expandloadu_epi64 0x55 input (i + 4)) coeff_broadcast)) (fun out i =>
        Function.update out i (mulReference (input i) c0)) len out
  else
    blocksThenWords 4 (fun out i =>
      let in_vec := _mm512_set_epi64 0 (input (i + 3)).bits 0 (input (i + 2)).bits
        0 (input (i + 1)).bits 0 (input (i + 0)).bits
      let coeff_vec := _mm512_set_epi64 0 (coeff ((i + 3) % n_coeff)).bits
        0 (coeff ((i + 2) % n_coeff)).bits 0 (coeff ((i + 1) % n_coeff)).bits
        0 (coeff ((i + 0) % n_coeff)).bits
      storeLanes out i 4 (productQuad in_vec coeff_vec)) (fun out i =>
        Function.update out i (mulReference (input i) (coeff (i % n_coeff)))) len out

/-- With one coefficient there are eight groups of four in a block, whose outputs are loaded before any
is stored. -/
def gf64_region_muladd_avx512_arr (out input : Words) (coeff : ℕ → Gf64) (len n_coeff : ℕ) : Words :=
  if n_coeff = 1 then
    let c0 := coeff 0
    let coeff_broadcast := _mm512_set1_epi64 c0.bits
    blocksThenWords 32 (fun prev i =>
      (List.range 8).foldl (fun out stream =>
        storeLanes out (i + stream * 4) 4 fun lane => (prev (i + stream * 4 + lane)).bits ^^^
          productQuad (_mm512_maskz_expandloadu_epi64 0x55 input (i + stream * 4)) coeff_broadcast lane)
        prev) (fun out i => Function.update out i (out i + mulReference (input i) c0)) len out
  else
    blocksThenWords 4 (fun out i =>
      xorLanes out i 4 (sumQuad (_mm512_maskz_expandloadu_epi64 0x55 input i) coeff n_coeff)) (fun out i =>
        Function.update out i (out i + wordSum (input i) coeff n_coeff)) len out

def gf64_region_coupled_muladd_avx512_arr := coupledMuladd gf64_region_muladd_avx512_arr

def gf64_region_fused_output_muladd_avx512_arr := fusedChunks 4 addBlock

def gf64_region_2d_muladd_avx512_arr := twoDimensional 4 addBlock

end Avx512

/-! ## Sets of kernels -/

/-- The kernels of an instruction set. -/
structure RegionKernelSet where
  mul : Words → Words → (ℕ → Gf64) → ℕ → ℕ → Words
  muladd : Words → Words → (ℕ → Gf64) → ℕ → ℕ → Words
  coupled_muladd : Words → (ℕ → Words) → (ℕ → Gf64) → ℕ → ℕ → Words
  fused_output_muladd : (ℕ → Words) → Words → (ℕ → Gf64) → ℕ → ℕ → ℕ → Words
  two_dimensional_muladd : (ℕ → Words) → ℕ → (ℕ → Words) → ℕ → (ℕ → Gf64) → ℕ → ℕ → ℕ → Words

def scalarKernels : RegionKernelSet where
  mul := gf64_region_mul_scalar_arr
  muladd := gf64_region_muladd_scalar_arr
  coupled_muladd := gf64_region_coupled_muladd_scalar_arr
  fused_output_muladd := gf64_region_fused_output_muladd_scalar_arr
  two_dimensional_muladd := gf64_region_2d_muladd_scalar_arr

def ssse3Kernels : RegionKernelSet where
  mul := Ssse3.gf64_region_mul_ssse3_arr
  muladd := Ssse3.gf64_region_muladd_ssse3_arr
  coupled_muladd := Ssse3.gf64_region_coupled_muladd_ssse3_arr
  fused_output_muladd := Ssse3.gf64_region_fused_output_muladd_ssse3_arr
  two_dimensional_muladd := Ssse3.gf64_region_2d_muladd_ssse3_arr

def avx2Kernels : RegionKernelSet where
  mul := Avx2.gf64_region_mul_avx2_arr
  muladd := Avx2.gf64_region_muladd_avx2_arr
  coupled_muladd := Avx2.gf64_region_coupled_muladd_avx2_arr
  fused_output_muladd := Avx2.gf64_region_fused_output_muladd_avx2_arr
  two_dimensional_muladd := Avx2.gf64_region_2d_muladd_avx2_arr

def avx512Kernels : RegionKernelSet where
  mul := Avx512.gf64_region_mul_avx512_arr
  muladd := Avx512.gf64_region_muladd_avx512_arr
  coupled_muladd := Avx512.gf64_region_coupled_muladd_avx512_arr
  fused_output_muladd := Avx512.gf64_region_fused_output_muladd_avx512_arr
  two_dimensional_muladd := Avx512.gf64_region_2d_muladd_avx512_arr

end Par3
