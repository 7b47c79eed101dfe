import Mathlib.LinearAlgebra.Lagrange

/-!
# Polynomials over a tree of products

The points are numbered, and a node of the tree stands for an interval of numbers: its polynomial is
the monic one whose roots are the points there. A remainder modulo such a polynomial keeps the
values at the roots. Sums of nodal polynomials, each without one of its factors, combine over two
intervals by two products, and interpolate when the coefficients are divided by the values of the
derivative.
-/

namespace ProductTree

open Polynomial Lagrange

variable {K : Type*} [Field K] {x : ℕ → K}

/-- Neighbouring intervals. -/
theorem nodal_append (x : ℕ → K) {start middle stop : ℕ} (first : start ≤ middle)
    (second : middle ≤ stop) :
    nodal (Finset.Ico start stop) x =
      nodal (Finset.Ico start middle) x * nodal (Finset.Ico middle stop) x :=
  (Finset.prod_Ico_consecutive (fun i => X - C (x i)) first second).symm

/-- Remainders may be taken on the way. -/
theorem dvd_sub_mod {f g modulus divisor : K[X]} (congruent : modulus ∣ f - g)
    (divides : divisor ∣ modulus) :
    divisor ∣ f - g % divisor := by
  have rest : g - g % divisor = divisor * (g / divisor) :=
    sub_eq_of_eq_add' (by rw [add_comm, EuclideanDomain.div_add_mod])
  have split : f - g % divisor = (f - g) + divisor * (g / divisor) := by rw [← rest]; ring
  rw [split]
  exact dvd_add (divides.trans congruent) (dvd_mul_right _ _)

/-- Multiples of the nodal polynomial, each without one factor. -/
noncomputable def combination (s : Finset ℕ) (x z : ℕ → K) : K[X] :=
  ∑ j ∈ s, C (z j) * nodal (s.erase j) x

theorem combination_congr {s : Finset ℕ} (x : ℕ → K) {z z' : ℕ → K} (same : ∀ j ∈ s, z j = z' j) :
    combination s x z = combination s x z' :=
  Finset.sum_congr rfl fun j member => by rw [same j member]

/-- What remains of a product without a factor on its left. -/
theorem combination_part {s t : Finset ℕ} (apart : Disjoint s t) (z : ℕ → K) :
    ∑ j ∈ s, C (z j) * nodal ((s ∪ t).erase j) x = combination s x z * nodal t x := by
  rw [combination, Finset.sum_mul]
  refine Finset.sum_congr rfl fun j member => ?_
  have other : j ∉ t := Finset.disjoint_left.mp apart member
  have without : (s ∪ t).erase j = s.erase j ∪ t := by
    rw [Finset.erase_union_distrib, Finset.erase_eq_of_notMem other]
  rw [without, mul_assoc]
  congr 1
  exact Finset.prod_union (Finset.disjoint_of_subset_left (Finset.erase_subset j s) apart)

/-- Two sums combine by two products. -/
theorem combination_union {s t : Finset ℕ} (apart : Disjoint s t) (z : ℕ → K) :
    combination (s ∪ t) x z = combination s x z * nodal t x + combination t x z * nodal s x := by
  rw [← combination_part apart, ← combination_part apart.symm, Finset.union_comm t s]
  exact Finset.sum_union apart

theorem combination_append (x z : ℕ → K) {start middle stop : ℕ} (first : start ≤ middle)
    (second : middle ≤ stop) :
    combination (Finset.Ico start stop) x z =
      combination (Finset.Ico start middle) x z * nodal (Finset.Ico middle stop) x +
        combination (Finset.Ico middle stop) x z * nodal (Finset.Ico start middle) x := by
  rw [← Finset.Ico_union_Ico_eq_Ico first second]
  exact combination_union (Finset.Ico_disjoint_Ico_consecutive start middle stop) z

theorem combination_degree_lt (s : Finset ℕ) (x z : ℕ → K) :
    (combination s x z).degree < s.card := by
  refine (degree_lt_iff_coeff_zero _ _).mpr fun k beyond => ?_
  rw [combination, finsetSum_coeff]
  refine Finset.sum_eq_zero fun j member => ?_
  rw [coeff_C_mul, coeff_eq_zero_of_natDegree_lt, mul_zero]
  rw [natDegree_nodal]
  exact lt_of_lt_of_le (Finset.card_erase_lt_of_mem member) (mod_cast beyond)

/-- With values divided by those of the derivative, the sum interpolates. -/
theorem combination_eq_interpolate (s : Finset ℕ) (x values : ℕ → K) :
    combination s x (fun j => values j * (eval (x j) (derivative (nodal s x)))⁻¹) =
      interpolate s x values := by
  rw [interpolate_eq_nodalWeight_mul_nodal_div_X_sub_C, combination]
  refine Finset.sum_congr rfl fun j member => ?_
  rw [← nodalWeight_eq_eval_derivative_nodal member, ← nodal_erase_eq_nodal_div member, C_mul]
  ring

/-- Divided by the product of all lines, the sum is one of partial fractions. -/
theorem combination_eval (s : Finset ℕ) (x z : ℕ → K) {y : K} (outside : ∀ j ∈ s, x j ≠ y) :
    eval y (combination s x z) * (eval y (nodal s x))⁻¹ = ∑ j ∈ s, z j * (y - x j)⁻¹ := by
  have nonzero : eval y (nodal s x) ≠ 0 :=
    eval_nodal_not_at_node fun j member => (outside j member).symm
  rw [combination, eval_finsetSum, Finset.sum_mul]
  refine Finset.sum_congr rfl fun j member => ?_
  have apart : y - x j ≠ 0 := sub_ne_zero.mpr (outside j member).symm
  have factor : eval y (nodal s x) = (y - x j) * eval y (nodal (s.erase j) x) := by
    rw [nodal_eq_mul_nodal_erase member, eval_mul, eval_sub, eval_X, eval_C]
  rw [factor] at nonzero ⊢
  rw [eval_mul, eval_C, mul_inv, mul_comm (y - x j)⁻¹, ← mul_assoc, mul_assoc (z j),
    mul_inv_cancel₀ (right_ne_zero_of_mul nonzero), mul_one]

end ProductTree
