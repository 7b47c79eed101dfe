import Mathlib.Algebra.Polynomial.Expand
import Mathlib.FieldTheory.Finite.Basic
import Mathlib.RingTheory.Coprime.Basic
import Par3.Foundations.BinaryField

/-!
# Polynomials as numbers

A natural number stands for the polynomial over two elements whose coefficients are its bits. The
bitwise operations are those of polynomials: exclusive or adds, a shift multiplies by a power of the
variable, and a carry-less product is the product. In a word ring the bits beyond the word are folded
back with the tail of the modulus.
-/
open Polynomial

namespace BinaryPolynomial

/-- The polynomial whose coefficients are the bits of a number. -/
noncomputable def ofBits (n : ℕ) : (ZMod 2)[X] :=
  ∑ i ∈ Finset.range n.size, if n.testBit i then X ^ i else 0

@[simp] theorem ofBits_coeff (n i : ℕ) : (ofBits n).coeff i = if n.testBit i then 1 else 0 := by
  have term (j : ℕ) : (if n.testBit j then (X ^ j : (ZMod 2)[X]) else 0).coeff i =
      if j = i then (if n.testBit i then 1 else 0) else 0 := by
    by_cases same : j = i
    · subst same
      rw [if_pos rfl]
      split <;> simp
    · rw [if_neg same]
      split
      · rw [coeff_X_pow, if_neg (Ne.symm same)]
      · exact coeff_zero i
  rw [ofBits, finsetSum_coeff, Finset.sum_congr rfl fun j _ => term j, Finset.sum_ite_eq']
  by_cases inside : i ∈ Finset.range n.size
  · rw [if_pos inside]
  · rw [if_neg inside]
    have high : n < 2 ^ i := Nat.size_le.mp (not_lt.mp fun short => inside (Finset.mem_range.mpr short))
    rw [Nat.testBit_lt_two_pow high]
    rfl

theorem ofBits_injective : Function.Injective ofBits := by
  intro a b same
  refine Nat.eq_of_testBit_eq fun i => ?_
  have coefficient := congrArg (fun p : (ZMod 2)[X] => p.coeff i) same
  simp only [ofBits_coeff] at coefficient
  cases left : a.testBit i <;> cases right : b.testBit i <;> simp_all

@[simp] theorem ofBits_zero : ofBits 0 = 0 := by
  ext i
  simp

@[simp] theorem ofBits_one : ofBits 1 = 1 := by
  ext i
  rw [ofBits_coeff, coeff_one]
  cases i with
  | zero => rfl
  | succ i => simp [Nat.testBit_succ]

theorem ofBits_xor (a b : ℕ) : ofBits (a ^^^ b) = ofBits a + ofBits b := by
  ext i
  rw [coeff_add, ofBits_coeff, ofBits_coeff, ofBits_coeff, Nat.testBit_xor]
  cases a.testBit i <;> cases b.testBit i <;> decide

theorem ofBits_shiftLeft (a count : ℕ) : ofBits (a <<< count) = X ^ count * ofBits a := by
  ext i
  rw [coeff_X_pow_mul', ofBits_coeff, ofBits_coeff, Nat.testBit_shiftLeft]
  by_cases low : count ≤ i
  · rw [if_pos low, decide_eq_true low, Bool.true_and]
  · rw [if_neg low, decide_eq_false low, Bool.false_and]
    rfl

/-- The low bits of a number and those that are shifted down. -/
theorem ofBits_split (a count : ℕ) :
    ofBits a = ofBits (a % 2 ^ count) + X ^ count * ofBits (a >>> count) := by
  ext i
  rw [coeff_add, coeff_X_pow_mul', ofBits_coeff, ofBits_coeff, ofBits_coeff, Nat.testBit_mod_two_pow,
    Nat.testBit_shiftRight]
  by_cases low : count ≤ i
  · rw [if_pos low, decide_eq_false (not_lt.mpr low), Bool.false_and, if_neg Bool.false_ne_true,
      zero_add, Nat.add_sub_cancel' low]
  · rw [if_neg low, decide_eq_true (not_le.mp low), Bool.true_and, add_zero]

theorem ofBits_two_pow (count : ℕ) : ofBits (2 ^ count) = X ^ count := by
  rw [← Nat.one_shiftLeft, ofBits_shiftLeft, ofBits_one, mul_one]

theorem ofBits_degree_lt {a count : ℕ} (small : a < 2 ^ count) : (ofBits a).degree < count := by
  rw [degree_lt_iff_coeff_zero]
  intro i high
  rw [ofBits_coeff, Nat.testBit_lt_two_pow (small.trans_le (Nat.pow_le_pow_right two_pos high))]
  rfl

/-- A word ring uses the same polynomials. -/
theorem poly_eq {w : ℕ} (a : BitVec w) : BinaryField.Word.poly a = ofBits a.toNat := by
  ext i
  rw [BinaryField.Word.poly_coeff, ofBits_coeff]
  rfl

/-- A number whose bits are those of another one, spread over the even places, is its square. -/
theorem ofBits_square {a b : ℕ}
    (spread : ∀ i, b.testBit i = (decide (2 ∣ i) && a.testBit (i / 2))) :
    ofBits b = ofBits a * ofBits a := by
  rw [← pow_two, ← ZMod.expand_card]
  ext i
  rw [coeff_expand two_pos, ofBits_coeff, ofBits_coeff, spread]
  by_cases even : 2 ∣ i
  · rw [if_pos even, decide_eq_true even, Bool.true_and]
  · rw [if_neg even, decide_eq_false even, Bool.false_and]
    rfl

/-! ## Carry-less products -/

/-- The carry-less product with the low bits of the second factor. -/
def clmulFrom (a b : ℕ) : ℕ → ℕ
  | 0 => 0
  | count + 1 => clmulFrom a b count ^^^ (if b.testBit count then a <<< count else 0)

/-- The carry-less product. -/
def clmul (a b : ℕ) : ℕ := clmulFrom a b b.size

theorem ofBits_clmul (a b : ℕ) : ofBits (clmul a b) = ofBits a * ofBits b := by
  have partly (count : ℕ) : ofBits (clmulFrom a b count) =
      ofBits a * ∑ i ∈ Finset.range count, if b.testBit i then X ^ i else 0 := by
    induction count with
    | zero => rw [clmulFrom, ofBits_zero, Finset.sum_range_zero, mul_zero]
    | succ count ih =>
      rw [clmulFrom, ofBits_xor, ih, Finset.sum_range_succ, mul_add]
      congr 1
      split
      · rw [ofBits_shiftLeft, mul_comm]
      · rw [ofBits_zero, mul_zero]
  exact partly b.size

theorem clmul_lt {a b first second : ℕ} (left : a < 2 ^ first) (right : b < 2 ^ second) :
    clmul a b < 2 ^ (first + second) := by
  have partly (count : ℕ) (inside : count ≤ second) : clmulFrom a b count < 2 ^ (first + second) := by
    induction count with
    | zero => exact Nat.two_pow_pos _
    | succ count ih =>
      refine Nat.xor_lt_two_pow (ih (by omega)) ?_
      split
      · rw [Nat.shiftLeft_eq, Nat.pow_add]
        exact Nat.mul_lt_mul_of_lt_of_le left
          (Nat.pow_le_pow_right two_pos (by omega)) (Nat.two_pow_pos _)
      · exact Nat.two_pow_pos _
  exact partly _ (Nat.size_le.mpr right)

/-! ## Classes -/

section Classes

open BinaryField.Word

variable {w : ℕ} {tail : BitVec w}

/-- The class of a number in the ring of words. -/
noncomputable def classOf (tail : BitVec w) (n : ℕ) : AdjoinRoot (modulus tail) :=
  AdjoinRoot.mk (modulus tail) (ofBits n)

theorem denote_eq (a : BinaryField.Word w tail) : denote a = classOf tail a.bits.toNat := by
  rw [denote, poly_eq, classOf]

theorem classOf_xor (a b : ℕ) : classOf tail (a ^^^ b) = classOf tail a + classOf tail b := by
  rw [classOf, ofBits_xor, map_add]
  rfl

theorem classOf_zero : classOf tail 0 = 0 := by
  rw [classOf, ofBits_zero, map_zero]

theorem classOf_one : classOf tail 1 = 1 := by
  rw [classOf, ofBits_one, map_one]

theorem classOf_clmul (a b : ℕ) :
    classOf tail (clmul a b) = classOf tail a * classOf tail b := by
  rw [classOf, ofBits_clmul, map_mul]
  rfl

/-- The class of the power that leaves the word is that of the tail. -/
theorem mk_X_pow : AdjoinRoot.mk (modulus tail) (X ^ w) = classOf tail tail.toNat := by
  rw [map_pow, AdjoinRoot.mk_X, root_pow_width, denote_eq]

/-- Bits beyond the word come back with the tail. -/
theorem classOf_fold (a : ℕ) : classOf tail a =
    classOf tail (a % 2 ^ w) + classOf tail tail.toNat * classOf tail (a >>> w) := by
  rw [classOf, ofBits_split a w, map_add, map_mul, mk_X_pow]
  rfl

/-- The number of the modulus itself. -/
theorem classOf_modulus : classOf tail (2 ^ w ^^^ tail.toNat) = 0 := by
  rw [classOf, ofBits_xor, ofBits_two_pow, ← poly_eq]
  exact AdjoinRoot.mk_self

/-- A word is the only one with its class. -/
theorem eq_of_classOf {a b : BitVec w} (same : classOf tail a.toNat = classOf tail b.toNat) :
    a = b := by
  have words : denote (⟨a⟩ : BinaryField.Word w tail) = denote (⟨b⟩ : BinaryField.Word w tail) := by
    rw [denote_eq, denote_eq]
    exact same
  exact congrArg BinaryField.Word.bits (denote_injective words)

/-- The product of words is the product of their polynomials, reduced. -/
theorem poly_mul [NeZero w] (a b : BinaryField.Word w tail) :
    poly (a * b).bits = (poly a.bits * poly b.bits) %ₘ modulus tail := by
  have monic := modulus_monic tail
  have same : AdjoinRoot.mk (modulus tail) (poly (a * b).bits) =
      AdjoinRoot.mk (modulus tail) (poly a.bits * poly b.bits) := by
    rw [map_mul]
    exact denote_mul a b
  have small : (poly (a * b).bits).degree < (modulus tail).degree := by
    rw [modulus_degree]
    exact poly_degree_lt _
  rw [← (modByMonic_eq_self_iff monic).mpr small]
  exact (modByMonic_eq_of_dvd_sub monic (AdjoinRoot.mk_eq_mk.mp same))

end Classes

end BinaryPolynomial
