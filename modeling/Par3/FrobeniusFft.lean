import Par3.Foundations.FallibleLoops
import Par3.Gf64MulContract

/-!
# The transform over squared halves

The forward transform splits the coefficients by parity, squares both halves, transforms them and
combines them with one product for each pair. The inverse takes the same steps backwards and
undoes a squaring by 63 more, since 64 squarings give every word back. The vector variants take
eight pairs at a time.
-/

namespace Par3

open FallibleLoops

/-! ## Parts of both variants -/

def gf64_log2_size (n : ℕ) : ℕ := if 1 < n then gf64_log2_size (n / 2) + 1 else 0
termination_by n

theorem gf64_log2_size_pow (k : ℕ) : gf64_log2_size (2 ^ k) = k := by
  induction k with
  | zero =>
    rw [gf64_log2_size]
    rfl
  | succ k ih =>
    have large : 1 < 2 ^ (k + 1) := Nat.one_lt_two_pow (Nat.succ_ne_zero k)
    rw [gf64_log2_size, if_pos large, pow_succ, Nat.mul_div_cancel _ Nat.two_pos,
      ih]

def gf64_fft_scale (n : ℕ) : BitVec 64 :=
  let log_n := gf64_log2_size n
  if log_n = 0 then 1 else 1 <<< (log_n - 1)

def gf64_apply_inverse_frobenius (values : ℕ → BitVec 64) (n : ℕ) : ℕ → BitVec 64 :=
  (List.range 63).foldl (fun values _ => gf64_square_vector_in_place values n) values

def gf64_scale_vector (values : ℕ → BitVec 64) (n : ℕ) (scale : BitVec 64) : ℕ → BitVec 64 :=
  if scale = 1 then values
  else (List.range n).foldl (fun values i =>
    Function.update values i (gf64_mul_reference (values i) scale)) values

/-- The places of the even and the odd coefficients, into two new arrays. -/
def splitParity (poly : ℕ → BitVec 64) (half : ℕ) : (ℕ → BitVec 64) × (ℕ → BitVec 64) :=
  (List.range half).foldl (fun halves i => (Function.update halves.1 i (poly (2 * i)),
    Function.update halves.2 i (poly (2 * i + 1)))) (fun _ => 0, fun _ => 0)

/-- And back. -/
def joinParity (poly even_half odd_half : ℕ → BitVec 64) (half : ℕ) : ℕ → BitVec 64 :=
  (List.range half).foldl (fun poly i =>
    Function.update (Function.update poly (2 * i) (even_half i)) (2 * i + 1) (odd_half i)) poly

/-! ## One pair at a time -/

def gf64_fft_forward (poly : ℕ → BitVec 64) (n : ℕ) : ℕ → BitVec 64 :=
  if n ≤ 1 then poly
  else
    let half := n / 2
    let halves := splitParity poly half
    let even_half := gf64_square_vector_in_place halves.1 half
    let odd_half := gf64_square_vector_in_place halves.2 half
    let even_half := gf64_fft_forward even_half half
    let odd_half := gf64_fft_forward odd_half half
    (List.range half).foldl (fun poly i =>
      let alpha := BitVec.ofNat 64 i
      let beta := even_half i
      let gamma := gf64_mul_reference alpha (odd_half i)
      let poly := Function.update poly i (beta ^^^ gamma)
      Function.update poly (i + half) (poly i ^^^ odd_half i)) poly
termination_by n

def gf64_fft_inverse_unscaled (poly : ℕ → BitVec 64) (n : ℕ) : ℕ → BitVec 64 :=
  if n ≤ 1 then poly
  else
    let half := n / 2
    let halves := (List.range half).foldl (fun halves i =>
      let alpha := BitVec.ofNat 64 i
      let odd := poly i ^^^ poly (i + half)
      (Function.update halves.1 i (poly i ^^^ gf64_mul_reference alpha odd),
        Function.update halves.2 i odd)) (fun _ => 0, fun _ => 0)
    let even_half := gf64_fft_inverse_unscaled halves.1 half
    let odd_half := gf64_fft_inverse_unscaled halves.2 half
    joinParity poly (gf64_apply_inverse_frobenius even_half half)
      (gf64_apply_inverse_frobenius odd_half half) half
termination_by n

def gf64_fft_inverse (poly : ℕ → BitVec 64) (n : ℕ) : ℕ → BitVec 64 :=
  if n ≤ 1 then poly
  else gf64_scale_vector (gf64_fft_inverse_unscaled poly n) n (gf64_fft_scale n)

/-! ## Eight pairs at a time -/

def GF64_FFT_AVX512_MIN : ℕ := 64

def GF64_FFT_AVX512_LANES : ℕ := 8

def gf64_apply_inverse_frobenius_avx512 (values : ℕ → BitVec 64) (n : ℕ) : ℕ → BitVec 64 :=
  (List.range 63).foldl (fun values _ => gf64_square_avx512 values n) values

def gf64_fft_forward_avx512 (poly : ℕ → BitVec 64) (n : ℕ) : ℕ → BitVec 64 :=
  if n ≤ 1 then poly
  else if n < GF64_FFT_AVX512_MIN then gf64_fft_forward poly n
  else
    let half := n / 2
    let halves := splitParity poly half
    let even_half := gf64_square_avx512 halves.1 half
    let odd_half := gf64_square_avx512 halves.2 half
    let even_half := gf64_fft_forward_avx512 even_half half
    let odd_half := gf64_fft_forward_avx512 odd_half half
    (List.range ((half + 7) / GF64_FFT_AVX512_LANES)).foldl (fun poly batch =>
      let i := batch * GF64_FFT_AVX512_LANES
      let alpha_buf := fun k => BitVec.ofNat 64 (i + k)
      let prod_buf := gf64_mul_avx512 (fun _ => 0) alpha_buf (fun k => odd_half (i + k))
        GF64_FFT_AVX512_LANES
      (List.range GF64_FFT_AVX512_LANES).foldl (fun poly k =>
        let beta := even_half (i + k)
        let gamma := prod_buf k
        let poly := Function.update poly (i + k) (beta ^^^ gamma)
        Function.update poly (i + k + half) (poly (i + k) ^^^ odd_half (i + k))) poly) poly
termination_by n

def gf64_fft_inverse_unscaled_avx512 (poly : ℕ → BitVec 64) (n : ℕ) : ℕ → BitVec 64 :=
  if n ≤ 1 then poly
  else if n < GF64_FFT_AVX512_MIN then gf64_fft_inverse_unscaled poly n
  else
    let half := n / 2
    let halves := (List.range ((half + 7) / GF64_FFT_AVX512_LANES)).foldl (fun halves batch =>
      let i := batch * GF64_FFT_AVX512_LANES
      let odd_buf := fun k => poly (i + k) ^^^ poly (i + k + half)
      let alpha_buf := fun k => BitVec.ofNat 64 (i + k)
      let prod_buf := gf64_mul_avx512 (fun _ => 0) alpha_buf odd_buf GF64_FFT_AVX512_LANES
      (List.range GF64_FFT_AVX512_LANES).foldl (fun halves k =>
        (Function.update halves.1 (i + k) (poly (i + k) ^^^ prod_buf k),
          Function.update halves.2 (i + k) (odd_buf k))) halves) (fun _ => 0, fun _ => 0)
    let even_half := gf64_fft_inverse_unscaled_avx512 halves.1 half
    let odd_half := gf64_fft_inverse_unscaled_avx512 halves.2 half
    joinParity poly (gf64_apply_inverse_frobenius_avx512 even_half half)
      (gf64_apply_inverse_frobenius_avx512 odd_half half) half
termination_by n

def gf64_fft_inverse_avx512 (poly : ℕ → BitVec 64) (n : ℕ) : ℕ → BitVec 64 :=
  if n ≤ 1 then poly
  else gf64_scale_vector (gf64_fft_inverse_unscaled_avx512 poly n) n (gf64_fft_scale n)

end Par3
