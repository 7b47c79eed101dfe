import Par3.FrobeniusFft

/-!
# The inverse transform gives the coefficients back

A butterfly adds a product of the odd half and then the odd half itself, so two sums give both
halves back, and the squarings before the recursion are undone by 63 more after it. What is left
is the factor that the public inverse multiplies by. The vector variants write the same words at
the same places.
-/

namespace Par3

open FallibleLoops BinaryField

/-! ## Vectors of words -/

/-- So many squarings of one word. -/
theorem squarings_apply (values : ℕ → BitVec 64) {n index : ℕ} (inside : index < n) (rounds : ℕ) :
    (List.range rounds).foldl (fun values _ => gf64_square_vector_in_place values n) values index =
      ((⟨values index⟩ : Gf64) ^ 2 ^ rounds).bits := by
  induction rounds with
  | zero => simp
  | succ rounds ih =>
    rw [List.range_succ, List.foldl_append, List.foldl_cons, List.foldl_nil, square_vector_eq]
    dsimp only
    rw [if_pos inside, ih, gf64_square_one_eq, ← pow_two, ← pow_mul, ← pow_succ]

/-- 63 squarings take back one. -/
theorem inverse_frobenius_square {values : ℕ → BitVec 64} {n index : ℕ} (inside : index < n)
    {word : BitVec 64} (squared : values index = gf64_square_one word) :
    gf64_apply_inverse_frobenius values n index = word := by
  rw [gf64_apply_inverse_frobenius, squarings_apply values inside, squared, gf64_square_one_eq,
    ← pow_two, ← pow_mul, ← pow_succ', Word.pow_two_pow_width]

theorem inverse_frobenius_congr {left right : ℕ → BitVec 64} {n index : ℕ} (inside : index < n)
    (same : left index = right index) :
    gf64_apply_inverse_frobenius left n index = gf64_apply_inverse_frobenius right n index := by
  rw [gf64_apply_inverse_frobenius, gf64_apply_inverse_frobenius, squarings_apply _ inside,
    squarings_apply _ inside, same]

/-- A scale of one is left out, which changes nothing. -/
theorem scale_vector_apply (values : ℕ → BitVec 64) {n index : ℕ} (inside : index < n)
    (scale : BitVec 64) :
    gf64_scale_vector values n scale index = ((⟨values index⟩ : Gf64) * ⟨scale⟩).bits := by
  rw [gf64_scale_vector]
  split
  · rename_i one
    have unit : (⟨scale⟩ : Gf64) = 1 := Word.ext one
    rw [unit, mul_one]
  · rw [foldl_update_range fun _ word => gf64_mul_reference word scale]
    dsimp only
    rw [if_pos inside, gf64_mul_reference_eq]

/-! ## One level -/

section Level

variable (poly even_half odd_half : ℕ → BitVec 64) {half index : ℕ}

theorem splitParity_even (inside : index < half) :
    (splitParity poly half).1 index = poly (2 * index) := by
  rw [splitParity, foldl_update_both (fun i => poly (2 * i)) fun i => poly (2 * i + 1)]
  exact if_pos inside

theorem splitParity_odd (inside : index < half) :
    (splitParity poly half).2 index = poly (2 * index + 1) := by
  rw [splitParity, foldl_update_both (fun i => poly (2 * i)) fun i => poly (2 * i + 1)]
  exact if_pos inside

theorem joinParity_even (inside : index < half) :
    joinParity poly even_half odd_half half (2 * index) = even_half index :=
  writePairs_low (fun left right same => by omega)
    (fun _ _ _ _ => by omega) inside

theorem joinParity_odd (inside : index < half) :
    joinParity poly even_half odd_half half (2 * index + 1) = odd_half index :=
  writePairs_high (fun left right same => by omega)
    (fun _ _ _ _ => by omega) inside

/-- The loop of the butterflies. -/
theorem butterflies_eq (half : ℕ) :
    (List.range half).foldl (fun poly i =>
        let alpha := BitVec.ofNat 64 i
        let beta := even_half i
        let gamma := gf64_mul_reference alpha (odd_half i)
        let poly := Function.update poly i (beta ^^^ gamma)
        Function.update poly (i + half) (poly i ^^^ odd_half i)) poly =
      writePairs id (· + half)
        (fun i => even_half i ^^^ gf64_mul_reference (BitVec.ofNat 64 i) (odd_half i))
        (fun i => even_half i ^^^ gf64_mul_reference (BitVec.ofNat 64 i) (odd_half i) ^^^ odd_half i)
        half poly := by
  simp only [writePairs, Function.update_self, id]

end Level

/-- One level of the forward transform, in both halves of its output. -/
theorem forward_level (poly : ℕ → BitVec 64) (k : ℕ) {index : ℕ} (inside : index < 2 ^ k) :
    let halves := splitParity poly (2 ^ k)
    let even := gf64_fft_forward (gf64_square_vector_in_place halves.1 (2 ^ k)) (2 ^ k) index
    let odd := gf64_fft_forward (gf64_square_vector_in_place halves.2 (2 ^ k)) (2 ^ k) index
    let low := even ^^^ gf64_mul_reference (BitVec.ofNat 64 index) odd
    gf64_fft_forward poly (2 ^ (k + 1)) index = low ∧
      gf64_fft_forward poly (2 ^ (k + 1)) (index + 2 ^ k) = low ^^^ odd := by
  have large : ¬ 2 ^ (k + 1) ≤ 1 := not_le.mpr (Nat.one_lt_two_pow (Nat.succ_ne_zero k))
  have half : 2 ^ (k + 1) / 2 = 2 ^ k := by rw [pow_succ, Nat.mul_div_cancel _ Nat.two_pos]
  intro halves even odd low
  rw [gf64_fft_forward, if_neg large, half]
  dsimp only
  rw [butterflies_eq]
  constructor
  · exact writePairs_low Function.injective_id (fun _ _ _ _ => by dsimp only [id]; omega) inside
  · exact writePairs_high (add_left_injective _) (fun _ _ _ _ => by dsimp only [id]; omega) inside

/-- What one level of the inverse splits its input into. -/
def splitButterfly (poly : ℕ → BitVec 64) (half : ℕ) : (ℕ → BitVec 64) × (ℕ → BitVec 64) :=
  (List.range half).foldl (fun halves i =>
    let alpha := BitVec.ofNat 64 i
    let odd := poly i ^^^ poly (i + half)
    (Function.update halves.1 i (poly i ^^^ gf64_mul_reference alpha odd),
      Function.update halves.2 i odd)) (fun _ => 0, fun _ => 0)

theorem splitButterfly_apply (poly : ℕ → BitVec 64) {half index : ℕ} (inside : index < half) :
    (splitButterfly poly half).2 index = poly index ^^^ poly (index + half) ∧
      (splitButterfly poly half).1 index = poly index ^^^
        gf64_mul_reference (BitVec.ofNat 64 index) (poly index ^^^ poly (index + half)) := by
  rw [splitButterfly, foldl_update_both
    (fun i => poly i ^^^ gf64_mul_reference (BitVec.ofNat 64 i) (poly i ^^^ poly (i + half)))
    fun i => poly i ^^^ poly (i + half)]
  exact ⟨if_pos inside, if_pos inside⟩

theorem inverse_level (poly : ℕ → BitVec 64) (k : ℕ) {index : ℕ} (inside : index < 2 ^ k) :
    let halves := splitButterfly poly (2 ^ k)
    gf64_fft_inverse_unscaled poly (2 ^ (k + 1)) (2 * index) = gf64_apply_inverse_frobenius
        (gf64_fft_inverse_unscaled halves.1 (2 ^ k)) (2 ^ k) index ∧
      gf64_fft_inverse_unscaled poly (2 ^ (k + 1)) (2 * index + 1) = gf64_apply_inverse_frobenius
        (gf64_fft_inverse_unscaled halves.2 (2 ^ k)) (2 ^ k) index := by
  have large : ¬ 2 ^ (k + 1) ≤ 1 := not_le.mpr (Nat.one_lt_two_pow (Nat.succ_ne_zero k))
  have half : 2 ^ (k + 1) / 2 = 2 ^ k := by rw [pow_succ, Nat.mul_div_cancel _ Nat.two_pos]
  intro halves
  rw [gf64_fft_inverse_unscaled, if_neg large, half]
  exact ⟨joinParity_even _ _ _ inside, joinParity_odd _ _ _ inside⟩

/-! ## The inverse -/

/-- An index below the double of a bound is twice an index below it, or one more. -/
theorem parity_cases {half index : ℕ} (inside : index < half * 2) :
    ∃ i < half, index = 2 * i ∨ index = 2 * i + 1 :=
  ⟨index / 2, by omega, by omega⟩

/-- The inverse depends on the first words only. -/
theorem inverse_congr (k : ℕ) {left right : ℕ → BitVec 64}
    (same : ∀ index < 2 ^ k, left index = right index) (index : ℕ) (inside : index < 2 ^ k) :
    gf64_fft_inverse_unscaled left (2 ^ k) index = gf64_fft_inverse_unscaled right (2 ^ k) index := by
  induction k generalizing left right index with
  | zero =>
    rw [gf64_fft_inverse_unscaled, gf64_fft_inverse_unscaled]
    exact same index inside
  | succ k ih =>
    have split (i : ℕ) (bound : i < 2 ^ k) :
        (splitButterfly left (2 ^ k)).1 i = (splitButterfly right (2 ^ k)).1 i ∧
          (splitButterfly left (2 ^ k)).2 i = (splitButterfly right (2 ^ k)).2 i := by
      have low := same i (by rw [pow_succ]; omega)
      have high := same (i + 2 ^ k) (by rw [pow_succ]; omega)
      obtain ⟨leftOdd, leftEven⟩ := splitButterfly_apply left bound
      obtain ⟨rightOdd, rightEven⟩ := splitButterfly_apply right bound
      rw [leftOdd, leftEven, rightOdd, rightEven, low, high]
      exact ⟨rfl, rfl⟩
    rw [pow_succ] at inside
    obtain ⟨i, bound, rfl | rfl⟩ := parity_cases inside
    · rw [(inverse_level left k bound).1, (inverse_level right k bound).1]
      exact inverse_frobenius_congr bound (ih (fun j small => (split j small).1) i bound)
    · rw [(inverse_level left k bound).2, (inverse_level right k bound).2]
      exact inverse_frobenius_congr bound (ih (fun j small => (split j small).2) i bound)

/-- A butterfly is undone by two sums. -/
theorem splitButterfly_forward (poly : ℕ → BitVec 64) (k : ℕ) {index : ℕ} (inside : index < 2 ^ k) :
    let halves := splitParity poly (2 ^ k)
    let undone := splitButterfly (gf64_fft_forward poly (2 ^ (k + 1))) (2 ^ k)
    undone.1 index =
        gf64_fft_forward (gf64_square_vector_in_place halves.1 (2 ^ k)) (2 ^ k) index ∧
      undone.2 index =
        gf64_fft_forward (gf64_square_vector_in_place halves.2 (2 ^ k)) (2 ^ k) index := by
  intro halves undone
  obtain ⟨low, high⟩ := forward_level poly k inside
  obtain ⟨odd, even⟩ := splitButterfly_apply (gf64_fft_forward poly (2 ^ (k + 1))) inside
  have sum (x y : BitVec 64) : x ^^^ (x ^^^ y) = y := by rw [← BitVec.xor_assoc, BitVec.xor_self, BitVec.zero_xor]
  rw [low, high, sum] at odd even
  refine ⟨even.trans ?_, odd⟩
  rw [BitVec.xor_assoc, BitVec.xor_self, BitVec.xor_zero]

/-- The unscaled inverse gives the coefficients back. -/
theorem inverse_unscaled_forward (k : ℕ) (poly : ℕ → BitVec 64) (index : ℕ)
    (inside : index < 2 ^ k) :
    gf64_fft_inverse_unscaled (gf64_fft_forward poly (2 ^ k)) (2 ^ k) index = poly index := by
  induction k generalizing poly index with
  | zero =>
    rw [gf64_fft_inverse_unscaled, gf64_fft_forward]
    rfl
  | succ k ih =>
    rw [pow_succ] at inside
    obtain ⟨i, bound, rfl | rfl⟩ := parity_cases inside
    · rw [(inverse_level _ k bound).1]
      refine inverse_frobenius_square bound ?_
      rw [inverse_congr k (fun j small => (splitButterfly_forward poly k small).1) i bound,
        ih _ i bound, square_vector_eq]
      dsimp only
      rw [if_pos bound, splitParity_even poly bound]
    · rw [(inverse_level _ k bound).2]
      refine inverse_frobenius_square bound ?_
      rw [inverse_congr k (fun j small => (splitButterfly_forward poly k small).2) i bound,
        ih _ i bound, square_vector_eq]
      dsimp only
      rw [if_pos bound, splitParity_odd poly bound]

/-- The public inverse leaves a factor. -/
theorem inverse_forward (k : ℕ) (poly : ℕ → BitVec 64) {index : ℕ} (inside : index < 2 ^ k) :
    gf64_fft_inverse (gf64_fft_forward poly (2 ^ k)) (2 ^ k) index =
      if k = 0 then poly index
      else ((⟨poly index⟩ : Gf64) * ⟨BitVec.twoPow 64 (k - 1)⟩).bits := by
  rcases Nat.eq_zero_or_pos k with rfl | pos
  · rw [gf64_fft_inverse, gf64_fft_forward]
    rfl
  · have large : ¬ 2 ^ k ≤ 1 := not_le.mpr (Nat.one_lt_two_pow pos.ne')
    have scale : gf64_fft_scale (2 ^ k) = BitVec.twoPow 64 (k - 1) := by
      rw [gf64_fft_scale, gf64_log2_size_pow, if_neg pos.ne', BitVec.twoPow_eq]
      rfl
    rw [gf64_fft_inverse, if_neg large, scale_vector_apply _ inside,
      inverse_unscaled_forward k poly index inside, if_neg pos.ne', scale]

/-! ## The vector variants -/

theorem inverse_frobenius_avx512_eq (values : ℕ → BitVec 64) (n : ℕ) :
    gf64_apply_inverse_frobenius_avx512 values n = gf64_apply_inverse_frobenius values n := by
  simp only [gf64_apply_inverse_frobenius_avx512, gf64_apply_inverse_frobenius,
    gf64_square_avx512_eq]

/-- Eight products are eight products of words. -/
theorem lane_product (a b : ℕ → BitVec 64) {k : ℕ} (lane : k ∈ List.range GF64_FFT_AVX512_LANES) :
    gf64_mul_avx512 (fun _ => 0) a b GF64_FFT_AVX512_LANES k = gf64_mul_reference (a k) (b k) := by
  rw [gf64_mul_avx512_eq _ _ _ (List.mem_range.mp lane), gf64_mul_reference_eq]

/-- Batches of eight that cover a range. -/
theorem range_batches {half : ℕ} (whole : 8 ∣ half) : List.range half =
    List.range ((half + 7) / GF64_FFT_AVX512_LANES * GF64_FFT_AVX512_LANES) := by
  congr 1
  unfold GF64_FFT_AVX512_LANES
  omega

theorem forward_butterflies (poly even_half odd_half : ℕ → BitVec 64) {half : ℕ}
    (whole : 8 ∣ half) :
    (List.range ((half + 7) / GF64_FFT_AVX512_LANES)).foldl (fun poly batch =>
        let i := batch * GF64_FFT_AVX512_LANES
        let alpha_buf := fun k => BitVec.ofNat 64 (i + k)
        let prod_buf := gf64_mul_avx512 (fun _ => 0) alpha_buf (fun k => odd_half (i + k))
          GF64_FFT_AVX512_LANES
        (List.range GF64_FFT_AVX512_LANES).foldl (fun poly k =>
          let beta := even_half (i + k)
          let gamma := prod_buf k
          let poly := Function.update poly (i + k) (beta ^^^ gamma)
          Function.update poly (i + k + half) (poly (i + k) ^^^ odd_half (i + k))) poly) poly =
      (List.range half).foldl (fun poly i =>
        let alpha := BitVec.ofNat 64 i
        let beta := even_half i
        let gamma := gf64_mul_reference alpha (odd_half i)
        let poly := Function.update poly i (beta ^^^ gamma)
        Function.update poly (i + half) (poly i ^^^ odd_half i)) poly := by
  rw [range_batches whole, ← foldl_batches]
  refine List.foldl_ext _ _ _ fun poly batch _ => ?_
  dsimp only
  refine List.foldl_ext _ _ _ fun poly k lane => ?_
  rw [lane_product _ _ lane]

theorem inverse_butterflies (poly : ℕ → BitVec 64) {half : ℕ} (whole : 8 ∣ half) :
    (List.range ((half + 7) / GF64_FFT_AVX512_LANES)).foldl (fun halves batch =>
        let i := batch * GF64_FFT_AVX512_LANES
        let odd_buf := fun k => poly (i + k) ^^^ poly (i + k + half)
        let alpha_buf := fun k => BitVec.ofNat 64 (i + k)
        let prod_buf := gf64_mul_avx512 (fun _ => 0) alpha_buf odd_buf GF64_FFT_AVX512_LANES
        (List.range GF64_FFT_AVX512_LANES).foldl (fun halves k =>
          (Function.update halves.1 (i + k) (poly (i + k) ^^^ prod_buf k),
            Function.update halves.2 (i + k) (odd_buf k))) halves)
        ((fun _ => 0, fun _ => 0) : (ℕ → BitVec 64) × (ℕ → BitVec 64)) =
      splitButterfly poly half := by
  rw [splitButterfly, range_batches whole, ← foldl_batches]
  refine List.foldl_ext _ _ _ fun halves batch _ => ?_
  dsimp only
  refine List.foldl_ext _ _ _ fun halves k lane => ?_
  rw [lane_product _ _ lane]

/-- A half of at least 32 words is whole batches. -/
theorem half_whole {k : ℕ} (vector : ¬ 2 ^ (k + 1) < GF64_FFT_AVX512_MIN) : 8 ∣ 2 ^ k := by
  have exponent : 2 ^ 3 ≤ 2 ^ k := by
    rw [GF64_FFT_AVX512_MIN, pow_succ] at vector
    omega
  exact pow_dvd_pow 2 ((Nat.pow_le_pow_iff_right (by norm_num)).mp exponent)

theorem forward_avx512_eq (k : ℕ) (poly : ℕ → BitVec 64) :
    gf64_fft_forward_avx512 poly (2 ^ k) = gf64_fft_forward poly (2 ^ k) := by
  induction k generalizing poly with
  | zero =>
    rw [gf64_fft_forward_avx512, gf64_fft_forward]
    rfl
  | succ k ih =>
    have large : ¬ 2 ^ (k + 1) ≤ 1 := not_le.mpr (Nat.one_lt_two_pow (Nat.succ_ne_zero k))
    have half : 2 ^ (k + 1) / 2 = 2 ^ k := by rw [pow_succ, Nat.mul_div_cancel _ Nat.two_pos]
    rw [gf64_fft_forward_avx512, if_neg large]
    split
    · rfl
    · rename_i vector
      rw [gf64_fft_forward, if_neg large, half]
      dsimp only
      rw [gf64_square_avx512_eq, gf64_square_avx512_eq, ih, ih]
      exact forward_butterflies _ _ _ (half_whole vector)

theorem inverse_unscaled_avx512_eq (k : ℕ) (poly : ℕ → BitVec 64) :
    gf64_fft_inverse_unscaled_avx512 poly (2 ^ k) = gf64_fft_inverse_unscaled poly (2 ^ k) := by
  induction k generalizing poly with
  | zero =>
    rw [gf64_fft_inverse_unscaled_avx512, gf64_fft_inverse_unscaled]
    rfl
  | succ k ih =>
    have large : ¬ 2 ^ (k + 1) ≤ 1 := not_le.mpr (Nat.one_lt_two_pow (Nat.succ_ne_zero k))
    have half : 2 ^ (k + 1) / 2 = 2 ^ k := by rw [pow_succ, Nat.mul_div_cancel _ Nat.two_pos]
    rw [gf64_fft_inverse_unscaled_avx512, if_neg large]
    split
    · rfl
    · rename_i vector
      rw [gf64_fft_inverse_unscaled, if_neg large, half]
      dsimp only
      rw [inverse_butterflies poly (half_whole vector), inverse_frobenius_avx512_eq,
        inverse_frobenius_avx512_eq, ih, ih]
      rfl

/-- The transforms of every power of two: the unscaled inverse gives the coefficients back, the
public inverse a multiple of them, and the vector variants the same words. -/
theorem transform_round_trips (k : ℕ) (p : ℕ → BitVec 64) :
    (∀ index < 2 ^ k,
      gf64_fft_inverse_unscaled (gf64_fft_forward p (2 ^ k)) (2 ^ k) index = p index ∧
      gf64_fft_inverse (gf64_fft_forward p (2 ^ k)) (2 ^ k) index =
        if k = 0 then p index
        else ((⟨p index⟩ : Gf64) * ⟨BitVec.twoPow 64 (k - 1)⟩).bits) ∧
      gf64_fft_forward_avx512 p (2 ^ k) = gf64_fft_forward p (2 ^ k) ∧
      gf64_fft_inverse_unscaled_avx512 p (2 ^ k) = gf64_fft_inverse_unscaled p (2 ^ k) ∧
      gf64_fft_inverse_avx512 p (2 ^ k) = gf64_fft_inverse p (2 ^ k) := by
  refine ⟨fun index inside => ⟨?_, ?_⟩, forward_avx512_eq k p, inverse_unscaled_avx512_eq k p, ?_⟩
  · exact inverse_unscaled_forward k p index inside
  · exact inverse_forward k p inside
  · rw [gf64_fft_inverse_avx512, gf64_fft_inverse, inverse_unscaled_avx512_eq]

end Par3
