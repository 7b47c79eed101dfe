import Par3.MultiPointContract
import Par3.Foundations.Slabs

/-!
# Products with one factor in common

Several polynomials are multiplied by the same one, and its transform is computed once.
-/

namespace Par3

open NovelBasis Polynomial

/-- Words with zeros behind them. -/
def zeroPadded (a : ℕ → Gf64) (len : ℕ) : ℕ → Gf64 := fun i => if i < len then a i else 0

/-- A product with the factor whose transform is known. -/
def productWith (pt f : ℕ → Gf64) (len_f n : ℕ) (avx512 registered : Bool) : ℕ → Gf64 :=
  let pf := gf64_addfft64_fwd_recursive_scratch (zeroPadded f len_f) n avx512 registered
  gf64_addfft64_inv_recursive_scratch (fun i => pf i * pt i) n avx512 registered

/-- The length of a transform. -/
def productLength (len_shared len_f out_len : ℕ) : ℕ :=
  2 ^ Nat.clog 2 (max (len_shared + len_f - 1) out_len)

/-- The words from `f` on are the polynomials. The scratch, which is written before it is read, must
have room for four transforms. -/
def gf64_addfft64_poly_mul_batch_shared_core (avx512 registered : Bool) (size room : ℕ)
    (words : ℕ → Gf64) (outs : ℕ → ℕ) (K : ℕ) (shared : ℕ → Gf64) (len_shared f len_f out_len : ℕ) :
    Option (ℕ → Gf64) :=
  if K = 0 then some words
  else if len_shared = 0 ∨ len_f = 0 ∨ out_len = 0 then
    (List.range K).foldlM (fun words k => putWords size words (outs k) out_len fun _ => 0) words
  else
    let full_len := max (len_shared + len_f - 1) out_len
    let n := productLength len_shared len_f out_len
    if 4 * n > room then none
    else
      let pt := gf64_addfft64_fwd_recursive_scratch (zeroPadded shared len_shared) n avx512 registered
      (List.range K).foldlM (fun words k =>
        let pf := productWith pt (view words (f + k * len_f)) len_f n avx512 registered
        let copy_n := min full_len out_len
        putWords size words (outs k) out_len fun i => if i < copy_n then pf i else 0) words

def GF64_HQC_BATCH_LANES : ℕ := 8

/-! ## One product -/

theorem zeroPadded_eq (a : ℕ → Gf64) (len : ℕ) :
    zeroPadded a len = fun i => (wordList a len).getD i 0 := by
  funext i
  have same := polynomialOf_coeff (wordList a len) i
  rw [polynomialOf_wordList, firstTerms_coeff] at same
  exact same

section Product

variable {shared f : ℕ → Gf64} {len_shared len_f m : ℕ} (small : m ≤ 20) (someShared : 0 < len_shared)
  (some_f : 0 < len_f) (enough : len_shared + len_f - 1 ≤ 2 ^ m)

include small someShared some_f enough

theorem productWith_coeff (avx512 registered : Bool) {i : ℕ} (inside : i < 2 ^ m) :
    productWith
        (gf64_addfft64_fwd_recursive_scratch (zeroPadded shared len_shared) (2 ^ m) avx512 registered) f
        len_f (2 ^ m) avx512 registered i =
      (firstTerms shared len_shared * firstTerms f len_f).coeff i := by
  rw [productWith, zeroPadded_eq, zeroPadded_eq]
  rw [transform_convolution small avx512 avx512 registered registered (wordList f len_f)
    (wordList shared len_shared) (by rwa [wordList_length]) (by rwa [wordList_length])
    (by rw [wordList_length, wordList_length]; omega) i inside, convolution_eq, polynomialOf_wordList,
    polynomialOf_wordList, mul_comm]

end Product

/-! ## All products -/

/-- The slabs of the products, where nothing else has changed. -/
def Multiplied (words : ℕ → Gf64) (place stride K : ℕ) (shared : ℕ → Gf64)
    (len_shared f len_f out_len : ℕ) (last : ℕ → Gf64) : Prop :=
  (∀ k < K, ∀ i < out_len, last (place + k * stride + i) =
    (firstTerms shared len_shared * firstTerms (view words (f + k * len_f)) len_f).coeff i) ∧
  ∀ j, j < place ∨ place + K * stride ≤ j → last j = words j

theorem productLength_le {len_shared len_f out_len : ℕ}
    (fits : max (len_shared + len_f - 1) out_len ≤ GF64_HQC_MAX_LM_N) :
    ∃ m ≤ 20, productLength len_shared len_f out_len = 2 ^ m ∧ len_shared + len_f - 1 ≤ 2 ^ m ∧
      out_len ≤ 2 ^ m := by
  have large := Nat.le_pow_clog (by omega : 1 < 2) (max (len_shared + len_f - 1) out_len)
  exact ⟨_, Nat.clog_le_of_le_pow fits, rfl, (le_max_left _ _).trans large,
    (le_max_right _ _).trans large⟩

end Par3
