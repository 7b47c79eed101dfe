import Par3.Gf64
import Mathlib.Algebra.BigOperators.Group.Finset.Basic
import Mathlib.Algebra.BigOperators.Intervals

/-!
# Region kernels

The kernels multiply arrays of words by coefficients and add the products to their
outputs. They are the scalar reference versions, which every vector version has to
match. An array is the function of its word contents; a kernel changes the words below
its length and no others.
-/

namespace Par3

/-- The words of an array. -/
abbrev Words := ℕ → Gf64

/-- A loop that adds one term at a time is a sum. -/
theorem foldl_add_range {M : Type*} [AddCommMonoid M] (term : ℕ → M) (count : ℕ) (start : M) :
    (List.range count).foldl (fun sum index => sum + term index) start =
      start + ∑ index ∈ Finset.range count, term index := by
  induction count with
  | zero => simp
  | succ count ih =>
    rw [List.range_succ, List.foldl_append, List.foldl_cons, List.foldl_nil, ih,
      Finset.sum_range_succ, add_assoc]

/-- `out[i] = in[i] * coeff[i % n_coeff]`. -/
def gf64_region_mul_arr (out input : Words) (coeff : ℕ → Gf64) (len n_coeff : ℕ) : Words :=
  fun i => if i < len then input i * coeff (i % n_coeff) else out i

/-- `out[i] ^= sum`, where the sum is over all coefficients. -/
def gf64_region_muladd_arr (out input : Words) (coeff : ℕ → Gf64) (len n_coeff : ℕ) : Words :=
  fun i =>
    if i < len then
      out i + (List.range n_coeff).foldl (fun sum c => sum + input i * coeff c) 0
    else out i

/-- One input after the other, each with its own coefficient, into one output. -/
def gf64_region_coupled_muladd_arr (out : Words) (in_blocks : ℕ → Words) (coeff_blocks : ℕ → Gf64)
    (len G : ℕ) : Words :=
  (List.range G).foldl
    (fun out g => gf64_region_muladd_arr out (in_blocks g) (fun _ => coeff_blocks g) len 1) out

/-- One input into `K` outputs. -/
def gf64_region_fused_output_muladd_arr (outs : ℕ → Words) (input : Words)
    (coeff_block_starts : ℕ → Gf64) (len K : ℕ) : ℕ → Words :=
  fun k i => if i < len ∧ k < K then outs k i + input i * coeff_block_starts k else outs k i

/-- `G` inputs into `K` outputs, with a coefficient for each pair. -/
def gf64_region_2d_muladd_arr (outs : ℕ → Words) (K : ℕ) (in_blocks : ℕ → Words) (G : ℕ)
    (coeff_block_2d : ℕ → Gf64) (K_stride len : ℕ) : ℕ → Words :=
  (List.range G).foldl
    (fun outs g k i =>
      if i < len ∧ k < K then outs k i + in_blocks g i * coeff_block_2d (k * K_stride + g)
      else outs k i)
    outs

section Specifications

variable (out input : Words) (outs in_blocks : ℕ → Words) (coeff : ℕ → Gf64)
  (len G K K_stride n_coeff : ℕ)

/-- A multiply-add with one coefficient adds its product inside the length. -/
theorem gf64_region_muladd_arr_one (i : ℕ) :
    gf64_region_muladd_arr out input coeff len 1 i =
      if i < len then out i + input i * coeff 0 else out i := by
  simp [gf64_region_muladd_arr]

/-- The coupled kernel adds the whole combination inside the length. -/
theorem gf64_region_coupled_muladd_arr_apply (i : ℕ) :
    gf64_region_coupled_muladd_arr out in_blocks coeff len G i =
      if i < len then out i + ∑ g ∈ Finset.range G, in_blocks g i * coeff g else out i := by
  unfold gf64_region_coupled_muladd_arr
  induction G with
  | zero => simp
  | succ G ih =>
    rw [List.range_succ, List.foldl_append, List.foldl_cons, List.foldl_nil,
      gf64_region_muladd_arr_one, ih, Finset.sum_range_succ]
    split
    · rw [add_assoc]
    · rfl

/-- The two-dimensional kernel is the coupled kernel on each of its outputs. -/
theorem gf64_region_2d_muladd_arr_apply (k i : ℕ) :
    gf64_region_2d_muladd_arr outs K in_blocks G coeff K_stride len k i =
      if i < len ∧ k < K then
        outs k i + ∑ g ∈ Finset.range G, in_blocks g i * coeff (k * K_stride + g)
      else outs k i := by
  unfold gf64_region_2d_muladd_arr
  induction G with
  | zero => simp
  | succ G ih =>
    rw [List.range_succ, List.foldl_append, List.foldl_cons, List.foldl_nil, ih,
      Finset.sum_range_succ]
    split
    · rw [add_assoc]
    · rfl

end Specifications

end Par3
