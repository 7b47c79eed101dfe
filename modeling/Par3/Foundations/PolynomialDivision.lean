import Mathlib.Algebra.Polynomial.FieldDivision
import Mathlib.Algebra.Polynomial.Reverse
import Mathlib.Algebra.CharP.Two
import Mathlib.Tactic.LinearCombination

/-!
# Division by a reciprocal

The reverse of a quotient is a product of power series: the reversed dividend and the reciprocal of
the reversed divisor, both up to as many coefficients as the quotient has. In characteristic two a
reciprocal known to some precision gives one of twice the precision by a square and a product.
-/

namespace PolynomialDivision

open Polynomial

section Precision

variable {R : Type*} [CommRing R] {p q s t : R[X]} {m n : ℕ}

/-- Polynomials with the same first coefficients. -/
def SameBelow (n : ℕ) (p q : R[X]) : Prop := X ^ n ∣ p - q

theorem sameBelow_iff : SameBelow n p q ↔ ∀ k < n, p.coeff k = q.coeff k := by
  rw [SameBelow, X_pow_dvd_iff]
  simp only [coeff_sub, sub_eq_zero]

theorem SameBelow.coeff (same : SameBelow n p q) {k : ℕ} (inside : k < n) : p.coeff k = q.coeff k :=
  sameBelow_iff.mp same k inside

theorem SameBelow.refl (n : ℕ) (p : R[X]) : SameBelow n p p := sameBelow_iff.mpr fun _ _ => rfl

theorem SameBelow.trans (first : SameBelow n p q) (second : SameBelow n q s) : SameBelow n p s :=
  sameBelow_iff.mpr fun _ inside => (first.coeff inside).trans (second.coeff inside)

theorem SameBelow.mono (same : SameBelow n p q) (le : m ≤ n) : SameBelow m p q :=
  sameBelow_iff.mpr fun _ inside => same.coeff (inside.trans_le le)

/-- The first coefficients of a product come from those of its factors. -/
theorem SameBelow.mul (first : SameBelow n p q) (second : SameBelow n s t) :
    SameBelow n (p * s) (q * t) := by
  obtain ⟨left, split⟩ := first
  obtain ⟨right, split'⟩ := second
  exact ⟨left * s + q * right, by linear_combination s * split + q * split'⟩

/-- Twice the precision. -/
theorem reciprocal_double [CharP R 2] {g r : R[X]} (known : SameBelow m (g * r) 1) :
    SameBelow (2 * m) (g * (g * (r * r))) 1 := by
  obtain ⟨rest, split⟩ := known
  refine ⟨rest * rest, ?_⟩
  rw [two_mul, pow_add]
  linear_combination (g * r - 1 + X ^ m * rest) * split -
    (1 - g * r) * (CharTwo.two_eq_zero : (2 : R[X]) = 0)

/-- One step, whose product may take the divisor and leave the result only up to the precision that
is wanted. -/
theorem reciprocal_step [CharP R 2] {g cut r next : R[X]} (known : SameBelow m (g * r) 1)
    (le : n ≤ 2 * m) (enough : SameBelow n cut g) (kept : SameBelow n next (cut * (r * r))) :
    SameBelow n (g * next) 1 :=
  have product : SameBelow n next (g * (r * r)) := kept.trans (enough.mul (.refl n (r * r)))
  ((SameBelow.refl n g).mul product).trans ((reciprocal_double known).mono le)

end Precision

section Quotient

variable {K : Type*} [Field K] {f g q r : K[X]}

/-- Only one quotient leaves a remainder of a smaller degree. -/
theorem quotient_unique {q' r' : K[X]} (first : f = g * q + r) (firstSmall : r.degree < g.degree)
    (second : f = g * q' + r') (secondSmall : r'.degree < g.degree) : q = q' ∧ r = r' := by
  have difference : g * (q - q') = r' - r := by linear_combination second - first
  have same : q = q' := by
    by_contra apart
    have large : g.degree ≤ (g * (q - q')).degree :=
      degree_le_mul_left g (sub_ne_zero.mpr apart)
    rw [difference] at large
    exact absurd (large.trans (degree_sub_le r' r)) (not_le.mpr (max_lt secondSmall firstSmall))
  subst same
  exact ⟨rfl, add_left_cancel (first.symm.trans second)⟩

theorem eq_div_and_mod (split : f = g * q + r) (small : r.degree < g.degree) :
    q = f / g ∧ r = f % g :=
  have some : g ≠ 0 := fun zero => absurd small (by rw [zero, degree_zero]; exact not_lt_bot)
  quotient_unique split small (EuclideanDomain.div_add_mod f g).symm (degree_mod_lt f some)

theorem natDegree_div_le {n : ℕ} (some : g ≠ 0) (fDegree : f.natDegree ≤ n) :
    (f / g).natDegree ≤ n - g.natDegree := by
  by_cases shorter : f.degree < g.degree
  · rw [(Polynomial.div_eq_zero_iff some).mpr shorter, natDegree_zero]
    exact Nat.zero_le _
  · have sum := degree_add_div some (not_lt.mp shorter)
    have quotient : f / g ≠ 0 := fun zero => shorter ((Polynomial.div_eq_zero_iff some).mp zero)
    have dividend : f ≠ 0 := fun zero => quotient (by rw [zero, EuclideanDomain.zero_div])
    rw [degree_eq_natDegree some, degree_eq_natDegree quotient, degree_eq_natDegree dividend] at sum
    have sum : g.natDegree + (f / g).natDegree = f.natDegree := mod_cast sum
    omega

/-- The reverse of a remainder begins with zeros, as many as the quotient has coefficients. -/
theorem reflect_small {n d : ℕ} (small : r.degree < d) (le : d ≤ n) :
    SameBelow (n - d + 1) (reflect n r) 0 := by
  refine sameBelow_iff.mpr fun k inside => ?_
  rw [coeff_reflect, revAt_le (by omega), coeff_zero]
  exact coeff_eq_zero_of_degree_lt (small.trans_le (Nat.cast_le.mpr (by omega)))

/-- The quotient, from its last coefficient to its first. -/
theorem div_coeff_of_reciprocal {inverse top : K[X]} {n d i : ℕ} (fDegree : f.natDegree ≤ n)
    (gDegree : g.degree = d) (le : d ≤ n) (known : SameBelow (n - d + 1) (reflect d g * inverse) 1)
    (cut : SameBelow (n - d + 1) top (reflect n f)) (inside : i ≤ n - d) :
    (f / g).coeff i = (top * inverse).coeff (n - d - i) := by
  have some : g ≠ 0 := fun zero => by rw [zero, degree_zero] at gDegree; exact nomatch gDegree
  have degree : g.natDegree = d := natDegree_eq_of_degree_eq_some gDegree
  have small : (f % g).degree < d := gDegree ▸ degree_mod_lt f some
  have reversed : reflect n f =
      reflect d g * reflect (n - d) (f / g) + reflect n (f % g) := by
    rw [← reflect_mul g (f / g) degree.le
      ((natDegree_div_le some fDegree).trans_eq (by rw [degree])), Nat.add_sub_cancel' le,
      ← reflect_add, EuclideanDomain.div_add_mod]
  have product : SameBelow (n - d + 1) (reflect n f) (reflect d g * reflect (n - d) (f / g)) := by
    obtain ⟨rest, zeros⟩ := reflect_small small le
    exact ⟨rest, by rw [reversed, ← zeros]; ring⟩
  have quotient : SameBelow (n - d + 1) (top * inverse) (reflect (n - d) (f / g)) := by
    have both := (cut.trans product).mul (SameBelow.refl (n - d + 1) inverse)
    have cancelled := known.mul (SameBelow.refl (n - d + 1) (reflect (n - d) (f / g)))
    rw [one_mul] at cancelled
    refine both.trans ?_
    rwa [mul_right_comm]
  rw [quotient.coeff (by omega), coeff_reflect, revAt_le (by omega)]
  congr 1
  omega

end Quotient

end PolynomialDivision
