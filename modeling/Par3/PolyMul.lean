import Par3.Bytes
import Par3.TransformContract

/-!
# Products of polynomials

Three ways to multiply: all pairs of coefficients, three products of halves, and the transform. The
lengths of the operands and of the result choose between them, and the result is cut or filled with
zeros to the length that is asked for.
-/

namespace Par3

open NovelBasis Polynomial

/-! ## Schoolbook -/

/-- `out[position] ^= value` -/
def xorAt (out : ℕ → Gf64) (position : ℕ) (value : Gf64) : ℕ → Gf64 :=
  Function.update out position (out position + value)

/-- The loops over all pairs of coefficients whose product is wanted. -/
def kschoolbook (a : ℕ → Gf64) (len_a : ℕ) (b : ℕ → Gf64) (len_b out_len : ℕ) : ℕ → Gf64 :=
  let a_cap := min len_a out_len
  let b_cap := min len_b out_len
  (List.range a_cap).foldl (fun out i =>
    if a i = 0 then out
    else (List.range (min b_cap (out_len - i))).foldl (fun out j => xorAt out (i + j) (a i * b j)) out)
    fun _ => 0

/-! ## Karatsuba -/

def GF64_KARATSUBA_THRESHOLD : ℕ := 64

/-- The full product of two polynomials of a length that is a power of two. -/
def kbal_full (a b : ℕ → Gf64) (n : ℕ) : ℕ → Gf64 :=
  if small : n ≤ GF64_KARATSUBA_THRESHOLD then kschoolbook a n b n (2 * n - 1)
  else
    let half := n / 2
    have : n / 2 < n := Nat.div_lt_self (by rw [GF64_KARATSUBA_THRESHOLD] at small; omega) (by decide)
    let len_z := 2 * half - 1
    let z0 := kbal_full a b half
    let z2 := kbal_full (fun i => a (i + half)) (fun i => b (i + half)) half
    let z1 := kbal_full (fun i => a i + a (i + half)) (fun i => b i + b (i + half)) half
    let z1 := fun i => z1 i + (z0 i + z2 i)
    (List.range len_z).foldl (fun out i =>
      xorAt (xorAt (xorAt out i (z0 i)) (i + half) (z1 i)) (i + n) (z2 i)) fun _ => 0
termination_by n

/-- Coefficients of a list, with zeros behind. -/
def padded (a : List Gf64) : ℕ → Gf64 := fun i => a.getD i 0

def gf64_poly_mul_karatsuba (a b : List Gf64) (out_len : ℕ) : List Gf64 :=
  if out_len = 0 then []
  else
    let a := a.take out_len
    let b := b.take out_len
    if a.length = 0 ∨ b.length = 0 then List.replicate out_len 0
    else
      let n_raw := max a.length b.length
      if n_raw ≤ GF64_KARATSUBA_THRESHOLD then
        (List.range out_len).map (kschoolbook (padded a) a.length (padded b) b.length out_len)
      else
        let n := 2 ^ Nat.clog 2 n_raw
        let full_result := fun i => if i < 2 * n - 1 then kbal_full (padded a) (padded b) n i else 0
        (List.range out_len).map full_result

/-! ## Choice -/

def GF64_HQC_FFT_MIN : ℕ := 96

def GF64_POLY_MUL_INTERNAL_KARATSUBA_MIN : ℕ := 128

/-- The product up to a length. The cap is that of programs other than tests. -/
def gf64_poly_mul_internal (a b : List Gf64) (out_len : ℕ) (avx512 registered : Bool) : List Gf64 :=
  if out_len = 0 then []
  else
    let hqc_cap := GF64_HQC_MAX_LM_N
    let max_len := max a.length b.length
    let full_len := max (2 * max_len - 1) out_len
    if a.length ≥ GF64_HQC_FFT_MIN ∧ b.length ≥ GF64_HQC_FFT_MIN ∧ out_len ≥ GF64_HQC_FFT_MIN ∧
        a.length ≤ hqc_cap ∧ b.length ≤ hqc_cap ∧ full_len ≤ hqc_cap then
      gf64_addfft64_poly_mul_recursive_scratch a b out_len avx512 registered
    else if a.length ≥ GF64_POLY_MUL_INTERNAL_KARATSUBA_MIN ∧
        b.length ≥ GF64_POLY_MUL_INTERNAL_KARATSUBA_MIN ∧
        out_len ≥ GF64_POLY_MUL_INTERNAL_KARATSUBA_MIN then
      gf64_poly_mul_karatsuba a b out_len
    else (List.range out_len).map (kschoolbook (padded a) a.length (padded b) b.length out_len)

/-- `gf64_length_error` -/
inductive LengthError
  | overflow

def gf64_poly_product_len (len_a len_b : ℕ) : Except LengthError ℕ :=
  if len_a = 0 ∨ len_b = 0 then .ok 0
  else if len_a > SIZE_MAX - len_b + 1 then .error .overflow
  else .ok (len_a + len_b - 1)

/-- The product of two polynomials, each with one coefficient more than its degree. -/
def gf64_poly_mul (a b : List Gf64) (avx512 registered : Bool) : Except LengthError (List Gf64) := do
  let out_len ← gf64_poly_product_len a.length b.length
  .ok (gf64_poly_mul_internal a b out_len avx512 registered)

def gf64_poly_mul_padded (a b : List Gf64) (out_len : ℕ) (avx512 registered : Bool) :
    Except LengthError (List Gf64) := do
  let _ ← gf64_poly_product_len a.length b.length
  .ok (gf64_poly_mul_internal a b out_len avx512 registered)

/-! ## Sums of products -/

/-- The polynomial of the first coefficients. -/
noncomputable def firstTerms (f : ℕ → Gf64) (count : ℕ) : Gf64[X] :=
  ∑ k ∈ Finset.range count, C (f k) * X ^ k

theorem firstTerms_coeff (f : ℕ → Gf64) (count k : ℕ) :
    (firstTerms f count).coeff k = if k < count then f k else 0 := by
  simp only [firstTerms, finsetSum_coeff, coeff_C_mul, coeff_X_pow, mul_ite, mul_one, mul_zero]
  rw [Finset.sum_ite_eq]
  simp only [Finset.mem_range]

theorem firstTerms_congr {f g : ℕ → Gf64} {count : ℕ} (same : ∀ k < count, f k = g k) :
    firstTerms f count = firstTerms g count :=
  Finset.sum_congr rfl fun k member => by rw [same k (Finset.mem_range.mp member)]

theorem firstTerms_add (f g : ℕ → Gf64) (count : ℕ) :
    firstTerms (fun i => f i + g i) count = firstTerms f count + firstTerms g count := by
  rw [firstTerms, firstTerms, firstTerms, ← Finset.sum_add_distrib]
  refine Finset.sum_congr rfl fun k _ => ?_
  rw [C_add, add_mul]

theorem firstTerms_halves (f : ℕ → Gf64) (half : ℕ) :
    firstTerms f (half + half) =
      firstTerms f half + X ^ half * firstTerms (fun i => f (i + half)) half := by
  have upper : ∑ k ∈ Finset.range half, C (f (half + k)) * X ^ (half + k) =
      X ^ half * firstTerms (fun i => f (i + half)) half := by
    rw [firstTerms, Finset.mul_sum]
    refine Finset.sum_congr rfl fun k _ => ?_
    rw [Nat.add_comm half k, pow_add]
    ring
  rw [← upper]
  exact Finset.sum_range_add _ _ _

/-- A product is the sum over all pairs of coefficients. -/
theorem mul_coeff (a b : ℕ → Gf64) (len_a len_b k : ℕ) :
    (firstTerms a len_a * firstTerms b len_b).coeff k =
      ∑ i ∈ Finset.range len_a, ∑ j ∈ Finset.range len_b, if i + j = k then a i * b j else 0 := by
  rw [firstTerms, firstTerms, Finset.sum_mul_sum]
  simp only [finsetSum_coeff]
  refine Finset.sum_congr rfl fun i _ => Finset.sum_congr rfl fun j _ => ?_
  have product : C (a i) * X ^ i * (C (b j) * X ^ j) = C (a i * b j) * X ^ (i + j) := by
    rw [C_mul, pow_add]
    ring
  rw [product, coeff_C_mul_X_pow]
  simp only [eq_comm]

theorem padded_firstTerms (a : List Gf64) : firstTerms (padded a) a.length = polynomialOf a := rfl

/-- Zeros behind do not matter. -/
theorem padded_more (a : List Gf64) {count : ℕ} (enough : a.length ≤ count) :
    firstTerms (padded a) count = polynomialOf a := by
  ext1 k
  rw [firstTerms_coeff, polynomialOf_coeff]
  split
  · rfl
  · rw [List.getD_eq_default _ _ (by omega)]

/-! ## Each way computes the product -/

theorem xorAt_apply (out : ℕ → Gf64) (position : ℕ) (value : Gf64) (k : ℕ) :
    xorAt out position value k = out k + if position = k then value else 0 := by
  rw [xorAt, Function.update_apply]
  by_cases here : k = position
  · rw [if_pos here, if_pos here.symm, here]
  · rw [if_neg here, if_neg (Ne.symm here), add_zero]

theorem foldl_xorAt (target : ℕ → ℕ) (value : ℕ → Gf64) (count : ℕ) (out : ℕ → Gf64) (k : ℕ) :
    (List.range count).foldl (fun out j => xorAt out (target j) (value j)) out k =
      out k + ∑ j ∈ Finset.range count, if target j = k then value j else 0 := by
  induction count with
  | zero => simp
  | succ count ih =>
    rw [List.range_succ, List.foldl_append, List.foldl_cons, List.foldl_nil, xorAt_apply,
      ih, Finset.sum_range_succ, add_assoc]

/-- The loops over pairs give the product up to the length. -/
theorem kschoolbook_coeff (a b : ℕ → Gf64) (len_a len_b : ℕ) {out_len k : ℕ} (inside : k < out_len) :
    kschoolbook a len_a b len_b out_len k = (firstTerms a len_a * firstTerms b len_b).coeff k := by
  have rows (count : ℕ) :
      (List.range count).foldl (fun out i =>
        if a i = 0 then out
        else (List.range (min (min len_b out_len) (out_len - i))).foldl
          (fun out j => xorAt out (i + j) (a i * b j)) out) (fun _ => 0) k =
      ∑ i ∈ Finset.range count, ∑ j ∈ Finset.range len_b, if i + j = k then a i * b j else 0 := by
    induction count with
    | zero => simp
    | succ count ih =>
      rw [List.range_succ, List.foldl_append, List.foldl_cons, List.foldl_nil,
        Finset.sum_range_succ]
      split
      case isTrue zero =>
        rw [ih, Finset.sum_eq_zero (s := Finset.range len_b), add_zero]
        intro j _
        rw [zero, zero_mul, ite_self]
      case isFalse nonzero =>
        rw [foldl_xorAt, ih]
        congr 1
        refine Finset.sum_subset (Finset.range_subset_range.mpr (by omega)) fun j wide narrow => ?_
        have below := Finset.mem_range.mp wide
        have above : ¬j < min (min len_b out_len) (out_len - count) :=
          fun less => narrow (Finset.mem_range.mpr less)
        exact if_neg (by omega)
  rw [kschoolbook, mul_coeff, rows]
  refine Finset.sum_subset (Finset.range_subset_range.mpr (by omega)) fun i wide narrow => ?_
  have below := Finset.mem_range.mp wide
  have above : ¬i < min len_a out_len := fun less => narrow (Finset.mem_range.mpr less)
  exact Finset.sum_eq_zero fun j _ => if_neg (by omega)

/-- The full product has no more coefficients than the result. -/
theorem mul_firstTerms_coeff_beyond (a b : ℕ → Gf64) {n k : ℕ} (beyond : 2 * n - 1 ≤ k) :
    (firstTerms a n * firstTerms b n).coeff k = 0 := by
  rw [mul_coeff]
  refine Finset.sum_eq_zero fun i first => Finset.sum_eq_zero fun j second => if_neg ?_
  have left := Finset.mem_range.mp first
  have right := Finset.mem_range.mp second
  omega

theorem firstTerms_shift_coeff (f : ℕ → Gf64) (count shift k : ℕ) :
    (X ^ shift * firstTerms f count).coeff k =
      ∑ i ∈ Finset.range count, if i + shift = k then f i else 0 := by
  rw [firstTerms, Finset.mul_sum, finsetSum_coeff]
  refine Finset.sum_congr rfl fun i _ => ?_
  have moved : X ^ shift * (C (f i) * X ^ i) = C (f i) * X ^ (i + shift) := by
    rw [pow_add]
    ring
  rw [moved, coeff_C_mul_X_pow]
  simp only [eq_comm]

/-- The loop that puts the three products together. -/
theorem combine_coeff (z0 z1 z2 : ℕ → Gf64) (half n len_z k : ℕ) :
    (List.range len_z).foldl (fun out i =>
        xorAt (xorAt (xorAt out i (z0 i)) (i + half) (z1 i)) (i + n) (z2 i)) (fun _ => 0) k =
      (firstTerms z0 len_z + X ^ half * firstTerms z1 len_z + X ^ n * firstTerms z2 len_z).coeff k := by
  have zeroth : (firstTerms z0 len_z).coeff k =
      ∑ i ∈ Finset.range len_z, if i = k then z0 i else 0 := by
    have unshifted := firstTerms_shift_coeff z0 len_z 0 k
    rwa [pow_zero, one_mul] at unshifted
  rw [coeff_add, coeff_add, zeroth, firstTerms_shift_coeff, firstTerms_shift_coeff]
  induction len_z with
  | zero => simp
  | succ len_z ih =>
    rw [List.range_succ, List.foldl_append, List.foldl_cons, List.foldl_nil, xorAt_apply,
      xorAt_apply, xorAt_apply, Finset.sum_range_succ, Finset.sum_range_succ, Finset.sum_range_succ]
    have known := ih ?before
    · rw [known]
      ring
    · have unshifted := firstTerms_shift_coeff z0 len_z 0 k
      rwa [pow_zero, one_mul] at unshifted

/-- In characteristic two, the mixed terms are what two of the products leave of the third. -/
theorem karatsuba_identity (a b c d x : Gf64[X]) :
    a * c + x * ((a + b) * (c + d) + (a * c + b * d)) + x * x * (b * d) =
      (a + x * b) * (c + x * d) := by
  linear_combination (x * (a * c) + x * (b * d)) * (CharTwo.two_eq_zero : (2 : Gf64[X]) = 0)

/-- Three products of halves make the product, for a length that can be halved down to the threshold. -/
theorem kbal_full_firstTerms (a b : ℕ → Gf64) {leaf : ℕ} (some : 0 < leaf)
    (short : leaf ≤ GF64_KARATSUBA_THRESHOLD) (m : ℕ) :
    firstTerms (kbal_full a b (leaf * 2 ^ m)) (2 * (leaf * 2 ^ m) - 1) =
      firstTerms a (leaf * 2 ^ m) * firstTerms b (leaf * 2 ^ m) := by
  induction m generalizing a b with
  | zero =>
    ext1 k
    rw [pow_zero, mul_one, kbal_full, dif_pos short, firstTerms_coeff]
    split
    case isTrue inside => exact kschoolbook_coeff a b _ _ inside
    case isFalse beyond => exact (mul_firstTerms_coeff_beyond a b (by omega)).symm
  | succ m ih =>
    ext1 k
    rw [kbal_full]
    split
    case isTrue small =>
      rw [firstTerms_coeff]
      split
      case isTrue inside => exact kschoolbook_coeff a b _ _ inside
      case isFalse beyond => exact (mul_firstTerms_coeff_beyond a b (by omega)).symm
    case isFalse large =>
      have double : leaf * 2 ^ (m + 1) = leaf * 2 ^ m + leaf * 2 ^ m := by ring
      have half : leaf * 2 ^ (m + 1) / 2 = leaf * 2 ^ m := by omega
      have more : 0 < leaf * 2 ^ m := Nat.mul_pos some (Nat.two_pow_pos m)
      simp only [half]
      generalize low : kbal_full a b (leaf * 2 ^ m) = z0
      generalize high : kbal_full (fun i => a (i + leaf * 2 ^ m)) (fun i => b (i + leaf * 2 ^ m)) (leaf * 2 ^ m) = z2
      generalize middle : kbal_full (fun i => a i + a (i + leaf * 2 ^ m)) (fun i => b i + b (i + leaf * 2 ^ m))
        (leaf * 2 ^ m) = z1
      have products : firstTerms a (leaf * 2 ^ (m + 1)) * firstTerms b (leaf * 2 ^ (m + 1)) =
          firstTerms z0 (2 * (leaf * 2 ^ m) - 1) +
            X ^ (leaf * 2 ^ m) * firstTerms (fun i => z1 i + (z0 i + z2 i)) (2 * (leaf * 2 ^ m) - 1) +
            X ^ (leaf * 2 ^ (m + 1)) * firstTerms z2 (2 * (leaf * 2 ^ m) - 1) := by
        rw [firstTerms_add z1, firstTerms_add z0, ← low, ← high, ← middle, ih,
          ih, ih, firstTerms_add, firstTerms_add, double, pow_add,
          firstTerms_halves, firstTerms_halves]
        exact (karatsuba_identity _ _ _ _ _).symm
      rw [products, firstTerms_coeff, combine_coeff]
      split
      case isTrue inside => rfl
      case isFalse beyond =>
        rw [← products]
        exact (mul_firstTerms_coeff_beyond a b (by omega)).symm

theorem kbal_full_coeff (a b : ℕ → Gf64) (m k : ℕ) (inside : k < 2 * 2 ^ m - 1) :
    kbal_full a b (2 ^ m) k = (firstTerms a (2 ^ m) * firstTerms b (2 ^ m)).coeff k := by
  have product := kbal_full_firstTerms a b Nat.one_pos (by decide) m
  rw [one_mul] at product
  rw [← product, firstTerms_coeff, if_pos inside]

/-! ## Every way agrees -/

theorem schoolbook_convolution (a b : List Gf64) {out_len k : ℕ} (inside : k < out_len) :
    kschoolbook (padded a) a.length (padded b) b.length out_len k = convolution a b k := by
  rw [kschoolbook_coeff _ _ _ _ inside, convolution_eq, padded_firstTerms, padded_firstTerms]

/-- Coefficients beyond the result do not matter. -/
theorem convolution_take (a b : List Gf64) {out_len k : ℕ} (inside : k < out_len) :
    convolution (a.take out_len) (b.take out_len) k = convolution a b k := by
  have kept (l : List Gf64) {i : ℕ} (le : i ≤ k) : (l.take out_len).getD i 0 = l.getD i 0 := by
    rw [List.getD_eq_getElem?_getD, List.getD_eq_getElem?_getD, List.getElem?_take_of_lt (by omega)]
  refine Finset.sum_congr rfl fun j member => ?_
  have before := Finset.mem_range.mp member
  rw [kept a (by omega), kept b (by omega)]

theorem gf64_poly_mul_karatsuba_eq (a b : List Gf64) (out_len : ℕ) :
    gf64_poly_mul_karatsuba a b out_len = (List.range out_len).map (convolution a b) := by
  rw [gf64_poly_mul_karatsuba]
  split
  case isTrue none => rw [none]; rfl
  case isFalse some =>
    simp only
    split
    case isTrue empty =>
      refine List.ext_getElem (by simp) fun i inside _ => ?_
      rw [List.length_replicate] at inside
      rw [List.getElem_replicate, List.getElem_map, List.getElem_range,
        ← convolution_take a b inside, convolution_nil _ _ _ empty]
    case isFalse more =>
      split
      case isTrue small =>
        refine List.map_congr_left fun k member => ?_
        have inside := List.mem_range.mp member
        rw [schoolbook_convolution _ _ inside, convolution_take a b inside]
      case isFalse large =>
        refine List.map_congr_left fun k member => ?_
        have inside := List.mem_range.mp member
        have room := Nat.le_pow_clog (by omega : 1 < 2)
          (max (a.take out_len).length (b.take out_len).length)
        rw [← convolution_take a b inside, convolution_eq,
          ← padded_more (a.take out_len) (le_of_max_le_left room),
          ← padded_more (b.take out_len) (le_of_max_le_right room)]
        split
        case isTrue within => exact kbal_full_coeff _ _ _ _ within
        case isFalse beyond => exact (mul_firstTerms_coeff_beyond _ _ (by omega)).symm

/-- Whichever way is chosen, the product up to the length comes out. -/
theorem gf64_poly_mul_internal_eq (a b : List Gf64) (out_len : ℕ) (avx512 registered : Bool) :
    gf64_poly_mul_internal a b out_len avx512 registered =
      (List.range out_len).map (convolution a b) := by
  rw [gf64_poly_mul_internal]
  split
  case isTrue none => rw [none]; rfl
  case isFalse some =>
    simp only
    split
    case isTrue transform => exact poly_mul_recursive_eq a b out_len avx512 registered (by omega)
    case isFalse shorter =>
      split
      case isTrue long => exact gf64_poly_mul_karatsuba_eq a b out_len
      case isFalse short =>
        exact List.map_congr_left fun k member =>
          schoolbook_convolution a b (List.mem_range.mp member)

/-- For all operands with coefficients, both functions return the product: the whole one, or as many
coefficients as are asked for. The ways to multiply agree. -/
theorem products_agree (a b : List Gf64) (someA : 0 < a.length) (someB : 0 < b.length)
    (fits : a.length + b.length - 1 ≤ SIZE_MAX) (out_len : ℕ) (avx512 registered : Bool) :
    gf64_poly_mul a b avx512 registered =
        .ok ((List.range (a.length + b.length - 1)).map (convolution a b)) ∧
      gf64_poly_mul_padded a b out_len avx512 registered =
        .ok ((List.range out_len).map (convolution a b)) ∧
      (max (a.length + b.length - 1) out_len ≤ GF64_HQC_MAX_LM_N →
        gf64_addfft64_poly_mul_recursive_scratch a b out_len avx512 registered =
          (List.range out_len).map (convolution a b)) ∧
      gf64_poly_mul_karatsuba a b out_len = (List.range out_len).map (convolution a b) ∧
      (List.range out_len).map (kschoolbook (padded a) a.length (padded b) b.length out_len) =
        (List.range out_len).map (convolution a b) := by
  have length : gf64_poly_product_len a.length b.length = .ok (a.length + b.length - 1) := by
    rw [gf64_poly_product_len, if_neg (by omega), if_neg (by omega)]
  refine ⟨?_, ?_, poly_mul_recursive_eq a b out_len avx512 registered,
    gf64_poly_mul_karatsuba_eq a b out_len,
    List.map_congr_left fun k member => schoolbook_convolution a b (List.mem_range.mp member)⟩
  · rw [gf64_poly_mul, length]
    exact congrArg _ (gf64_poly_mul_internal_eq a b _ avx512 registered)
  · rw [gf64_poly_mul_padded, length]
    exact congrArg _ (gf64_poly_mul_internal_eq a b _ avx512 registered)

/-- Two thousand coefficients times one thousand. -/
theorem products_agree_long :
    gf64_poly_mul (List.replicate 2000 3) (List.replicate 1000 5) false true =
      .ok ((List.range 2999).map (convolution (List.replicate 2000 3) (List.replicate 1000 5))) ∧
    gf64_poly_mul_padded (List.replicate 2000 3) (List.replicate 1000 5) 4096 false true =
      .ok ((List.range 4096).map (convolution (List.replicate 2000 3) (List.replicate 1000 5))) := by
  have products := products_agree (List.replicate 2000 3) (List.replicate 1000 5)
    (by rw [List.length_replicate]; decide) (by rw [List.length_replicate]; decide)
    (by rw [List.length_replicate, List.length_replicate]; decide) 4096 false true
  rw [List.length_replicate, List.length_replicate] at products
  exact ⟨products.1, products.2.1⟩

end Par3
