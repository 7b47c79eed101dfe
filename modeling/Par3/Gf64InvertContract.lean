import Par3.Gf64Invert
import Par3.Gf64MulContract

/-!
# All inverses are the same

Euclid's algorithm keeps two rows whose values are the factors of their rows times the word, and
whose polynomials have no common factor. Degrees fall until one of them is one. The chain of squares
is the power that inverts every word.
-/
namespace Par3

open BinaryPolynomial BinaryField Word Polynomial

/-! ## Rows -/

/-- Only the number one stands for a unit. -/
theorem eq_one_of_isUnit {n : ℕ} (unit : IsUnit (ofBits n)) : n = 1 := by
  obtain ⟨value, nonzero, same⟩ := Polynomial.isUnit_iff.mp unit
  apply ofBits_injective
  have one : value = 1 := by
    fin_cases value
    · exact absurd nonzero not_isUnit_zero
    · rfl
  rw [← same, one, ofBits_one, C_1]

theorem root_isUnit : IsUnit (classOf GF64_POLY 2) := by
  have inverse := congrArg denote (mul_inv_cancel₀ (show (⟨2⟩ : Gf64) ≠ 0 by decide))
  rw [denote_mul, denote_one, denote_eq] at inverse
  exact IsUnit.of_mul_eq_one _ inverse

theorem classOf_even {n : ℕ} (even : n % 2 = 0) :
    classOf GF64_POLY n = classOf GF64_POLY 2 * classOf GF64_POLY (n >>> 1) := by
  have split := ofBits_split n 1
  have two : ofBits 2 = X ^ 1 := ofBits_two_pow 1
  rw [show n % 2 ^ 1 = 0 from even, ofBits_zero, zero_add, ← two] at split
  rw [classOf, split, map_mul]
  rfl

/-- A word whose product with another one has the class one. -/
theorem eq_inverse {a b : BitVec 64} (product : classOf GF64_POLY b.toNat * classOf GF64_POLY a.toNat = 1) :
    b = ((⟨a⟩ : Gf64)⁻¹).bits := by
  have words : (⟨b⟩ : Gf64) * ⟨a⟩ = 1 := by
    apply denote_injective
    rw [denote_mul, denote_one, denote_eq, denote_eq]
    exact product
  exact congrArg Word.bits (eq_inv_of_mul_eq_one_left words)

/-- The first and the second row of Euclid's algorithm, and their factors. -/
structure Rows (a u v x1 x2 : ℕ) : Prop where
  first : classOf GF64_POLY x1 * classOf GF64_POLY a = classOf GF64_POLY u
  second : classOf GF64_POLY x2 * classOf GF64_POLY a = classOf GF64_POLY v
  coprime : IsCoprime (ofBits u) (ofBits v)

theorem Rows.swap {a u v x1 x2 : ℕ} (rows : Rows a u v x1 x2) : Rows a v u x2 x1 :=
  ⟨rows.second, rows.first, rows.coprime.symm⟩

/-- The second row, shifted, is added to the first. -/
theorem Rows.add {a u v x1 x2 : ℕ} (rows : Rows a u v x1 x2) (count : ℕ) :
    Rows a (u ^^^ (v <<< count)) v (x1 ^^^ (x2 <<< count)) x2 where
  first := by
    have shifted (n : ℕ) : classOf GF64_POLY (n <<< count) =
        AdjoinRoot.mk (modulus GF64_POLY) (X ^ count) * classOf GF64_POLY n := by
      rw [classOf, ofBits_shiftLeft, map_mul]
      rfl
    rw [classOf_xor, classOf_xor, shifted, shifted, add_mul, rows.first, mul_assoc, rows.second]
  second := rows.second
  coprime := by
    rw [ofBits_xor, ofBits_shiftLeft, mul_comm]
    exact rows.coprime.add_mul_left_left _

/-- Rows that are the same are one. -/
theorem Rows.apart {a u v x1 x2 : ℕ} (rows : Rows a u v x1 x2) {count : ℕ}
    (same : u = v <<< count) : v = 1 := by
  have coprime := rows.coprime
  rw [same, ofBits_shiftLeft] at coprime
  exact eq_one_of_isUnit (isCoprime_self.mp coprime.of_mul_left_right)

/-- The rows that the algorithm begins with. -/
theorem Rows.begin {a : BitVec 64} (nonzero : a ≠ 0) : Rows a.toNat a.toNat (2 ^ 64 ^^^ 27) 1 0 where
  first := by rw [classOf_one, one_mul]
  second := by
    rw [classOf_zero, zero_mul]
    exact (@classOf_modulus 64 GF64_POLY).symm
  coprime := by
    have inverse := congrArg denote (mul_inv_cancel₀ (show (⟨a⟩ : Gf64) ≠ 0 from fun zero =>
      nonzero (congrArg Word.bits zero)))
    rw [denote_mul, denote_one, denote_eq, denote_eq, classOf, classOf, ← map_mul, ← map_one
      (AdjoinRoot.mk (modulus GF64_POLY)), AdjoinRoot.mk_eq_mk] at inverse
    obtain ⟨factor, divided⟩ := inverse
    have poly : ofBits (2 ^ 64 ^^^ 27) = modulus GF64_POLY := by
      rw [ofBits_xor, ofBits_two_pow, modulus, poly_eq]
      rfl
    rw [poly]
    refine ⟨ofBits ((⟨a⟩ : Gf64)⁻¹).bits.toNat, -factor, ?_⟩
    linear_combination divided

/-! ## Halving -/

namespace Par3Gen

theorem POLY_eq : POLY = 2 ^ 64 ^^^ 27 := by decide

theorem and_one_eq_zero {n : ℕ} : n &&& 1 = 0 ↔ n % 2 = 0 := by rw [Nat.and_one_is_mod]

theorem size_shiftRight {n : ℕ} (pos : n ≠ 0) : (n >>> 1).size + 1 = n.size := by
  have half : n >>> 1 = n / 2 := Nat.shiftRight_eq_div_pow n 1
  apply le_antisymm
  · obtain ⟨more, size⟩ : ∃ more, n.size = more + 1 :=
      ⟨n.size - 1, by have := Nat.size_pos.mpr (Nat.pos_of_ne_zero pos); omega⟩
    have below := Nat.size_le.mp (le_refl n.size)
    rw [size, Nat.pow_succ] at below
    rw [size, half]
    exact Nat.succ_le_succ (Nat.size_le.mpr (by omega))
  · have below := Nat.size_le.mp (le_refl (n >>> 1).size)
    rw [Nat.size_le, Nat.pow_succ]
    omega

/-- Halving ends at an odd number, and the factor follows. -/
theorem halveBoth_rows {a v x2 rounds u x1 : ℕ} (rows : Rows a u v x1 x2) (nonzero : u ≠ 0)
    (small : x1 < 2 ^ 64) (room : u.size < rounds) :
    ∃ odd factor, halveBoth rounds u x1 = some (odd, factor) ∧ odd % 2 = 1 ∧ factor < 2 ^ 64 ∧
      Rows a odd v factor x2 ∧ odd.size ≤ u.size ∧ (u % 2 = 0 → odd.size < u.size) := by
  induction rounds generalizing u x1 with
  | zero => omega
  | succ rounds ih =>
    rw [halveBoth]
    by_cases even : u &&& 1 = 0
    · rw [if_pos even]
      have half := size_shiftRight nonzero
      have zero := and_one_eq_zero.mp even
      generalize factor_eq : (if x1 &&& 1 ≠ 0 then ((x1 ^^^ POLY) >>> 1) &&& 0xFFFFFFFFFFFFFFFF
        else x1 >>> 1) = factor
      have halved : classOf GF64_POLY 2 * classOf GF64_POLY factor = classOf GF64_POLY x1 ∧
          factor < 2 ^ 64 := by
        rw [← factor_eq]
        by_cases even : x1 &&& 1 = 0
        · rw [if_neg (not_not.mpr even), ← classOf_even (and_one_eq_zero.mp even),
            Nat.shiftRight_eq_div_pow]
          exact ⟨rfl, by omega⟩
        · have parity : (x1 ^^^ POLY) % 2 = 0 := by
            rw [and_one_eq_zero] at even
            rw [Nat.xor_mod_two_eq, POLY]
            omega
          have wide : x1 ^^^ POLY < 2 ^ 65 :=
            Nat.xor_lt_two_pow (small.trans (by norm_num)) (by decide)
          have masked : ((x1 ^^^ POLY) >>> 1) &&& 0xFFFFFFFFFFFFFFFF = (x1 ^^^ POLY) >>> 1 := by
            refine (Nat.and_two_pow_sub_one_eq_mod _ 64).trans (Nat.mod_eq_of_lt ?_)
            rw [Nat.shiftRight_eq_div_pow]
            omega
          have modulus : classOf GF64_POLY POLY = 0 := by
            rw [POLY_eq]
            exact @classOf_modulus 64 GF64_POLY
          rw [if_pos even, masked, ← classOf_even parity, classOf_xor, modulus, add_zero,
            Nat.shiftRight_eq_div_pow]
          exact ⟨rfl, by omega⟩
      obtain ⟨doubled, factorSmall⟩ := halved
      have next : Rows a (u >>> 1) v factor x2 := by
        refine ⟨?_, rows.second, ?_⟩
        · apply root_isUnit.mul_left_cancel
          rw [← mul_assoc, doubled, rows.first, classOf_even zero]
        · have coprime := rows.coprime
          rw [ofBits_split u 1, pow_one, zero, ofBits_zero, zero_add] at coprime
          exact coprime.of_mul_left_right
      obtain ⟨odd, last, found, parity, lastSmall, lastRows, size, -⟩ :=
        ih next (by
          rw [Nat.shiftRight_eq_div_pow]
          omega) factorSmall (by omega)
      exact ⟨odd, last, found, parity, lastSmall, lastRows, by omega, fun _ => by omega⟩
    · rw [if_neg even]
      have odd : u % 2 = 1 := by
        rw [and_one_eq_zero] at even
        omega
      exact ⟨u, x1, rfl, odd, small, rows, le_rfl, fun even => by omega⟩

theorem halve_odd {rounds v : ℕ} (odd : v % 2 = 1) (room : 0 < rounds) : halve rounds v = some v := by
  obtain ⟨more, rfl⟩ : ∃ more, rounds = more + 1 := ⟨rounds - 1, by omega⟩
  rw [halve, if_neg]
  rw [and_one_eq_zero]
  omega

/-- The sizes of the rows fall until the first one is one. -/
theorem invertLoop_inverse {a : BitVec 64} {inner rounds u v x1 x2 : ℕ}
    (rows : Rows a.toNat u v x1 x2) (nonzero : u ≠ 0) (oddV : v % 2 = 1) (smallU : u < 2 ^ 65)
    (smallV : v < 2 ^ 65) (small : x1 < 2 ^ 64) (smallX : x2 < 2 ^ 64) (innerRoom : 65 < inner)
    (room : u.size + v.size + u % 2 < rounds) :
    invertLoop inner rounds u v x1 x2 = some ((⟨a⟩ : Gf64)⁻¹).bits.toNat := by
  -- a row that is one has the inverse
  have done {x : ℕ} (x_small : x < 2 ^ 64) (one : classOf GF64_POLY x * classOf GF64_POLY a.toNat =
      classOf GF64_POLY 1) : x &&& 0xFFFFFFFFFFFFFFFF = ((⟨a⟩ : Gf64)⁻¹).bits.toNat := by
    have word : (BitVec.ofNat 64 x).toNat = x := by
      rw [BitVec.toNat_ofNat, Nat.mod_eq_of_lt x_small]
    rw [classOf_one, ← word] at one
    rw [← eq_inverse one, word]
    exact (Nat.and_two_pow_sub_one_eq_mod x 64).trans (Nat.mod_eq_of_lt x_small)
  induction rounds generalizing u v x1 x2 with
  | zero => omega
  | succ rounds ih =>
    rw [invertLoop]
    by_cases more : u ≠ 1 ∧ u ≠ 0
    · rw [if_pos more]
      have sizeU : u.size ≤ 65 := Nat.size_le.mpr smallU
      obtain ⟨odd, factor, found, parity, factorSmall, next, size, smaller⟩ :=
        halveBoth_rows rows nonzero small (show u.size < inner by omega)
      rw [found]
      change (if odd = 1 then invertLoop inner rounds odd v factor x2 else _) = _
      by_cases one : odd = 1
      · rw [if_pos one]
        obtain ⟨last, rfl⟩ : ∃ last, rounds = last + 1 := ⟨rounds - 1, by omega⟩
        rw [invertLoop, if_neg fun both => both.1 one, done factorSmall]
        rw [next.first, one]
      · rw [if_neg one, halve_odd oddV (by omega)]
        have oddSmall : odd < 2 ^ 65 := Nat.size_le.mp (by omega)
        simp only [Option.bind_eq_bind, Option.bind_some]
        -- the smaller row is added to the greater one
        have add {p q x y : ℕ} (rows : Rows a.toNat p q x y) (apart : q = 1 → p = 1 → False)
            (oddP : p % 2 = 1) (oddQ : q % 2 = 1) (ordered : q ≤ p) (smallP : p < 2 ^ 65)
            (xSmall : x < 2 ^ 64) (ySmall : y < 2 ^ 64)
            (sizes : p.size + q.size = odd.size + v.size) :
            invertLoop inner rounds (p ^^^ q) q (x ^^^ y) y = some ((⟨a⟩ : Gf64)⁻¹).bits.toNat := by
          have sum := rows.add 0
          rw [Nat.shiftLeft_zero, Nat.shiftLeft_zero] at sum
          have parity : (p ^^^ q) % 2 = 0 := by
            rw [Nat.xor_mod_two_eq]
            omega
          have sizeSum : (p ^^^ q).size ≤ p.size := by
            rw [Nat.size_le]
            exact Nat.xor_lt_two_pow (Nat.size_le.mp le_rfl)
              (Nat.size_le.mp (Nat.size_le_size ordered))
          refine ih sum ?_ oddQ (Nat.xor_lt_two_pow smallP (by omega)) (by omega)
            (Nat.xor_lt_two_pow xSmall ySmall) ySmall ?_
          · intro zero
            have same := Nat.xor_eq_zero_iff.mp zero
            have one := rows.apart (show p = q <<< 0 by rw [Nat.shiftLeft_zero, same])
            exact apart one (same.trans one)
          · rw [parity]
            by_cases even : u % 2 = 0
            · have := smaller even
              omega
            · omega
        by_cases less : odd < v
        · rw [if_pos less]
          dsimp only
          exact add next.swap (fun isOne _ => one isOne) oddV parity (by omega) smallV smallX
            factorSmall (by omega)
        · rw [if_neg less]
          dsimp only
          exact add next (fun _ isOne => one isOne) parity oddV (by omega) oddSmall factorSmall smallX
            (by omega)
    · rw [if_neg more]
      have one : u = 1 := by
        by_contra other
        exact more ⟨other, nonzero⟩
      rw [done small]
      rw [rows.first, one]

theorem invert64_eq {a : BitVec 64} (nonzero : a ≠ 0) {rounds : ℕ} (room : 200 ≤ rounds) :
    invert64 rounds a.toNat = some ((⟨a⟩ : Gf64)⁻¹).bits.toNat := by
  have word : a.toNat &&& 0xFFFFFFFFFFFFFFFF = a.toNat :=
    (Nat.and_two_pow_sub_one_eq_mod _ 64).trans (Nat.mod_eq_of_lt a.isLt)
  have notZero : a.toNat ≠ 0 := fun zero => nonzero (BitVec.eq_of_toNat_eq zero)
  have wide : a.toNat < 2 ^ 65 := a.isLt.trans (by norm_num)
  rw [invert64]
  simp only [word]
  rw [if_neg notZero]
  by_cases one : a.toNat = 1
  · rw [if_pos one]
    have inverse := @eq_inverse a 1 (by rw [one, show (1 : BitVec 64).toNat = 1 from rfl, classOf_one, one_mul])
    rw [← inverse]
    rfl
  · rw [if_neg one]
    have begin_ := Rows.begin nonzero
    rw [← POLY_eq] at begin_
    have sizeA : a.toNat.size ≤ 64 := Nat.size_le.mpr a.isLt
    have sizePoly : POLY.size ≤ 65 := Nat.size_le.mpr (by decide)
    exact invertLoop_inverse begin_ notZero (by decide) wide (by decide) (by norm_num) (by norm_num)
      (by omega) (by omega)

end Par3Gen

/-! ## Degrees -/

/-- The leading powers of numbers of the same degree cancel. -/
theorem xor_lt_of_log2 {p q degree : ℕ} (first : p.log2 = degree) (second : q.log2 = degree)
    (left : p ≠ 0) (right : q ≠ 0) : p ^^^ q < 2 ^ degree := by
  have top {n : ℕ} (log : n.log2 = degree) (nonzero : n ≠ 0) : n.testBit degree = true := by
    rw [← log]
    exact Nat.testBit_log2 nonzero
  apply Nat.lt_pow_two_of_testBit
  intro i high
  rw [Nat.testBit_xor]
  obtain rfl | above := Nat.eq_or_lt_of_le high
  · rw [top first left, top second right]
    rfl
  · have beyond {n : ℕ} (log : n.log2 = degree) (nonzero : n ≠ 0) : n.testBit i = false := by
      apply Nat.testBit_lt_two_pow
      rw [← Nat.log2_lt nonzero, log]
      exact above
    rw [beyond first left, beyond second right]
    rfl

theorem log2_shiftLeft {n : ℕ} (nonzero : n ≠ 0) (count : ℕ) :
    (n <<< count).log2 = n.log2 + count := by
  obtain ⟨lower, upper⟩ := (Nat.log2_eq_iff nonzero).mp rfl
  have shifted : n <<< count ≠ 0 := by
    rw [Nat.shiftLeft_eq]
    exact Nat.mul_ne_zero nonzero (Nat.two_pow_pos count).ne'
  rw [Nat.log2_eq_iff shifted, Nat.shiftLeft_eq, Nat.pow_add]
  refine ⟨Nat.mul_le_mul_right _ lower, ?_⟩
  rw [Nat.add_right_comm, Nat.pow_add]
  exact Nat.mul_lt_mul_of_pos_right upper (Nat.two_pow_pos count)

theorem degree_eq {a : BitVec 64} (nonzero : a ≠ 0) :
    (if a = 0 then -1 else 63 - my_clzll a) = (a.toNat.log2 : ℤ) := by
  rw [if_neg nonzero, my_clzll]
  omega

/-- What Euclid's algorithm keeps by degrees. The first row may have the leading power of the modulus,
which is not in its word. -/
structure EuclidState.Valid (a : ℕ) (state : EuclidState) (row0 : ℕ) : Prop where
  rows : Rows a row0 state.r1.toNat state.s0.toNat state.s1.toNat
  word : state.r0.toNat = row0 % 2 ^ 64
  nonzero0 : row0 ≠ 0
  nonzero1 : state.r1 ≠ 0
  deg_r0 : state.deg_r0 = row0.log2
  deg_r1 : state.deg_r1 = state.r1.toNat.log2
  bound : row0.log2 ≤ 64
  s0_small : state.s0.toNat < 2 ^ (65 - state.r1.toNat.log2)
  s1_small : state.s1.toNat < 2 ^ (65 - row0.log2)

namespace EuclidState

variable {a : ℕ} {state : EuclidState} {row0 : ℕ}

theorem Valid.log1 (valid : state.Valid a row0) : state.r1.toNat.log2 < 64 := by
  have notZero : state.r1.toNat ≠ 0 := fun zero => valid.nonzero1 (BitVec.eq_of_toNat_eq zero)
  exact (Nat.log2_lt notZero).mpr state.r1.isLt

/-- Ordering the rows keeps the degrees, and their difference is less than a word. -/
theorem Valid.ordered (valid : state.Valid a row0) (more : state.r1 ≠ 1) :
    ∃ row, state.ordered.Valid a row ∧ state.ordered.r1.toNat.log2 ≤ row.log2 ∧
      row.log2 - state.ordered.r1.toNat.log2 < 64 ∧
      row.log2 + state.ordered.r1.toNat.log2 = row0.log2 + state.r1.toNat.log2 := by
  have log1 := valid.log1
  have deg0 := valid.deg_r0
  have deg1 := valid.deg_r1
  have notZero : state.r1.toNat ≠ 0 := fun zero => valid.nonzero1 (BitVec.eq_of_toNat_eq zero)
  rw [EuclidState.ordered]
  by_cases less : state.deg_r0 < state.deg_r1
  · rw [if_pos less]
    have small : row0 < 2 ^ 64 := (Nat.log2_lt valid.nonzero0).mp (by omega)
    have word : state.r0.toNat = row0 := valid.word.trans (Nat.mod_eq_of_lt small)
    refine ⟨state.r1.toNat, ⟨?_, ?_, notZero, ?_, deg1, ?_, by omega, ?_, ?_⟩, ?_, ?_, ?_⟩
    · rw [word]
      exact valid.rows.swap
    · exact (Nat.mod_eq_of_lt state.r1.isLt).symm
    · intro zero
      rw [show state.r0 = 0 from zero] at word
      exact valid.nonzero0 word.symm
    · rw [word]
      exact deg0
    · rw [word]
      exact valid.s1_small
    · exact valid.s0_small
    · change state.r0.toNat.log2 ≤ _
      rw [word]
      omega
    · change _ - state.r0.toNat.log2 < 64
      omega
    · change _ + state.r0.toNat.log2 = _
      rw [word, Nat.add_comm]
  · rw [if_neg less]
    have pos : state.r1.toNat.log2 ≠ 0 := by
      intro zero
      have bounds := (Nat.log2_eq_iff notZero).mp zero
      have one : state.r1.toNat = 1 := by omega
      exact more (BitVec.eq_of_toNat_eq one)
    have bound := valid.bound
    exact ⟨row0, valid, by omega, by omega, rfl⟩

/-- One round adds the second row, shifted, to the first. -/
theorem Valid.add (valid : state.Valid a row0) (ordered : state.r1.toNat.log2 ≤ row0.log2)
    (near : row0.log2 - state.r1.toNat.log2 < 64) :
    ∃ r s, shiftWord state.r1 (state.deg_r0 - state.deg_r1) = some r ∧
      shiftWord state.s1 (state.deg_r0 - state.deg_r1) = some s ∧
      (state.r1 ≠ 1 → Valid a { state with
        r0 := state.r0 ^^^ r
        s0 := state.s0 ^^^ s
        deg_r0 := if state.r0 ^^^ r = 0 then -1 else 63 - my_clzll (state.r0 ^^^ r) }
          (row0 ^^^ (state.r1.toNat <<< (row0.log2 - state.r1.toNat.log2))) ∧
        (row0 ^^^ (state.r1.toNat <<< (row0.log2 - state.r1.toNat.log2))).log2 < row0.log2) := by
  generalize shift_eq : row0.log2 - state.r1.toNat.log2 = shift at near ⊢
  have shiftInt : state.deg_r0 - state.deg_r1 = (shift : ℤ) := by
    rw [valid.deg_r0, valid.deg_r1]
    omega
  have notZero : state.r1.toNat ≠ 0 := fun zero => valid.nonzero1 (BitVec.eq_of_toNat_eq zero)
  have shifted (word : BitVec 64) : shiftWord word (state.deg_r0 - state.deg_r1) =
      some (word <<< shift) := by
    rw [shiftInt, shiftWord, if_pos (by omega), Int.toNat_natCast]
  refine ⟨_, _, shifted _, shifted _, fun other => ?_⟩
  generalize row_eq : row0 ^^^ (state.r1.toNat <<< shift) = row
  have rows := valid.rows.add shift
  rw [row_eq] at rows
  have shiftedNonzero : state.r1.toNat <<< shift ≠ 0 := by
    rw [Nat.shiftLeft_eq]
    exact Nat.mul_ne_zero notZero (Nat.two_pow_pos shift).ne'
  have lower : row < 2 ^ row0.log2 := by
    rw [← row_eq]
    exact xor_lt_of_log2 rfl (by rw [log2_shiftLeft notZero]; omega) valid.nonzero0 shiftedNonzero
  have nonzero : row ≠ 0 := by
    intro zero
    rw [← row_eq, Nat.xor_eq_zero_iff] at zero
    exact other (BitVec.eq_of_toNat_eq (valid.rows.apart zero))
  have bound := valid.bound
  have small : row < 2 ^ 64 := lower.trans_le (Nat.pow_le_pow_right two_pos bound)
  have degree : row.log2 < row0.log2 := (Nat.log2_lt nonzero).mpr lower
  -- the leading power is dropped from both words
  have word : (state.r0 ^^^ (state.r1 <<< shift)).toNat = row := by
    rw [BitVec.toNat_xor, BitVec.toNat_shiftLeft, valid.word, ← Nat.xor_mod_two_pow, row_eq,
      Nat.mod_eq_of_lt small]
  have s1Wide : state.s1.toNat <<< shift < 2 ^ (65 - state.r1.toNat.log2) := by
    have split : 65 - state.r1.toNat.log2 = (65 - row0.log2) + shift := by omega
    rw [Nat.shiftLeft_eq, split, Nat.pow_add]
    exact Nat.mul_lt_mul_of_pos_right valid.s1_small (Nat.two_pow_pos shift)
  have pos : state.r1.toNat.log2 ≠ 0 := by
    intro zero
    have bounds := (Nat.log2_eq_iff notZero).mp zero
    have one : state.r1.toNat = 1 := by omega
    exact other (BitVec.eq_of_toNat_eq one)
  have s1Word : (state.s1 <<< shift).toNat = state.s1.toNat <<< shift := by
    rw [BitVec.toNat_shiftLeft]
    exact Nat.mod_eq_of_lt (s1Wide.trans_le (Nat.pow_le_pow_right two_pos (by omega)))
  have rowWord : state.r0 ^^^ (state.r1 <<< shift) ≠ 0 := by
    intro zero
    rw [zero] at word
    exact nonzero word.symm
  refine ⟨⟨?_, ?_, nonzero, valid.nonzero1, ?_, valid.deg_r1, by omega, ?_, ?_⟩, degree⟩
  · change Rows a row state.r1.toNat (state.s0 ^^^ (state.s1 <<< shift)).toNat state.s1.toNat
    rw [BitVec.toNat_xor, s1Word]
    exact rows
  · change (state.r0 ^^^ (state.r1 <<< shift)).toNat = row % 2 ^ 64
    rw [word, Nat.mod_eq_of_lt small]
  · change (if state.r0 ^^^ (state.r1 <<< shift) = 0 then -1
      else 63 - my_clzll (state.r0 ^^^ (state.r1 <<< shift))) = (row.log2 : ℤ)
    rw [degree_eq rowWord, word]
  · change (state.s0 ^^^ (state.s1 <<< shift)).toNat < _
    rw [BitVec.toNat_xor, s1Word]
    exact Nat.xor_lt_two_pow valid.s0_small s1Wide
  · exact valid.s1_small.trans_le (Nat.pow_le_pow_right two_pos (by omega))

end EuclidState

/-- Degrees fall until the second row is one. -/
theorem inverseLoop_inverse {a : BitVec 64} {rounds : ℕ} {state : EuclidState} {row0 : ℕ}
    (valid : state.Valid a.toNat row0)
    (room : row0.log2 + state.r1.toNat.log2 + 1 < rounds) :
    inverseLoop rounds state = some ((⟨a⟩ : Gf64)⁻¹).bits := by
  -- a second row that is one has the inverse
  have done {r1 s1 : BitVec 64} {row0 s0 : ℕ} (rows : Rows a.toNat row0 r1.toNat s0 s1.toNat)
      (one : r1 = 1) : some s1 = some ((⟨a⟩ : Gf64)⁻¹).bits := by
    have product := rows.second
    rw [one, show (1 : BitVec 64).toNat = 1 from rfl, classOf_one] at product
    rw [eq_inverse product]
  induction rounds generalizing state row0 with
  | zero => omega
  | succ rounds ih =>
    rw [inverseLoop]
    by_cases one : state.r1 = 1
    · rw [if_neg fun both => both.1 one, if_neg valid.nonzero1]
      exact done valid.rows one
    · rw [if_pos ⟨one, valid.nonzero1⟩]
      obtain ⟨row, ordered, order, near, sum⟩ := valid.ordered one
      obtain ⟨r, s, shiftR, shiftS, next⟩ := ordered.add order near
      have stepped : state.step = some { state.ordered with
          r0 := state.ordered.r0 ^^^ r
          s0 := state.ordered.s0 ^^^ s
          deg_r0 := if state.ordered.r0 ^^^ r = 0 then -1
            else 63 - my_clzll (state.ordered.r0 ^^^ r) } := by
        rw [EuclidState.step]
        simp only [shiftR, shiftS]
        rfl
      rw [stepped]
      change inverseLoop rounds _ = _
      by_cases last : state.ordered.r1 = 1
      · obtain ⟨more, rfl⟩ : ∃ more, rounds = more + 1 := ⟨rounds - 1, by omega⟩
        rw [inverseLoop, if_neg fun both => both.1 last, if_neg ordered.nonzero1]
        exact done ordered.rows last
      · obtain ⟨added, degree⟩ := next last
        refine ih added ?_
        change _ + state.ordered.r1.toNat.log2 + 1 < rounds
        omega

/-- The loop from its start takes no more than 128 steps. -/
theorem inverseLoop_start {a : BitVec 64} (nonzero : a ≠ 0) {rounds : ℕ} (room : 129 ≤ rounds) :
    inverseLoop rounds
      { r0 := 0x1B
        r1 := a
        s0 := 0
        s1 := 1
        deg_r0 := 64
        deg_r1 := if a = 0 then -1 else 63 - my_clzll a } = some ((⟨a⟩ : Gf64)⁻¹).bits := by
  have notZero : a.toNat ≠ 0 := fun zero => nonzero (BitVec.eq_of_toNat_eq zero)
  have log : a.toNat.log2 < 64 := (Nat.log2_lt notZero).mpr a.isLt
  have poly : (2 ^ 64 ^^^ 27 : ℕ).log2 = 64 := by decide
  refine @inverseLoop_inverse a rounds _ (2 ^ 64 ^^^ 27)
    ⟨(Rows.begin nonzero).swap, ?_, by decide, nonzero, ?_, degree_eq nonzero, poly.le, ?_,
      ?_⟩ ?_
  · change (0x1B : BitVec 64).toNat = _
    decide
  · rw [poly]
    rfl
  · exact Nat.two_pow_pos _
  · rw [poly]
    change (1 : BitVec 64).toNat < _
    decide
  · rw [poly]
    change 64 + a.toNat.log2 + 1 < rounds
    omega

theorem gf64_inverse_eq {a : BitVec 64} (nonzero : a ≠ 0) {rounds : ℕ} (room : 200 ≤ rounds) :
    gf64_inverse rounds a = some ((⟨a⟩ : Gf64)⁻¹).bits := by
  rw [gf64_inverse, if_neg nonzero]
  by_cases one : a = 1
  · rw [if_pos one]
    have inverse := @eq_inverse a 1 (by
      rw [one, show (1 : BitVec 64).toNat = 1 from rfl, classOf_one, one_mul])
    rw [← inverse]
  · rw [if_neg one]
    exact inverseLoop_start nonzero (by omega)

/-! ## Powers -/

/-- One square and one product in the chain of powers. -/
theorem power_step (a : Gf64) (count : ℕ) :
    a ^ (2 ^ (count + 1) - 1) * a ^ (2 ^ (count + 1) - 1) * a = a ^ (2 ^ (count + 1 + 1) - 1) := by
  have pos := Nat.two_pow_pos (count + 1)
  have exponent : 2 ^ (count + 1 + 1) - 1 = (2 ^ (count + 1) - 1) + (2 ^ (count + 1) - 1) + 1 := by
    rw [Nat.pow_succ 2 (count + 1)]
    omega
  rw [exponent, pow_succ a, pow_add a]

/-- The square at the end of the chain. -/
theorem power_inverse {a : Gf64} (nonzero : a ≠ 0) :
    a ^ (2 ^ (62 + 1) - 1) * a ^ (2 ^ (62 + 1) - 1) = a⁻¹ := by
  apply eq_inv_of_mul_eq_one_left
  rw [← pow_add, ← pow_succ]
  have period := pow_two_pow_width a
  have exponent : 2 ^ 64 = (2 ^ (62 + 1) - 1) + (2 ^ (62 + 1) - 1) + 1 + 1 := by norm_num
  rw [exponent, pow_succ] at period
  exact mul_right_cancel₀ nonzero (period.trans (one_mul _).symm)

theorem gf64_invert_ita_one_eq {a : BitVec 64} (nonzero : a ≠ 0) :
    gf64_invert_ita_one a = ((⟨a⟩ : Gf64)⁻¹).bits := by
  have word : (⟨a⟩ : Gf64) ≠ 0 := fun zero => nonzero (congrArg Word.bits zero)
  have chain (count : ℕ) : (List.range' 2 count).foldl (fun t _ =>
      gf64_mul_reference (gf64_square (fun _ => 0) (fun _ => t) 1 0) a) a =
        ((⟨a⟩ : Gf64) ^ (2 ^ (count + 1) - 1)).bits := by
    induction count with
    | zero => rw [Nat.zero_add, pow_one, show 2 - 1 = 1 from rfl, pow_one]; rfl
    | succ count ih =>
      rw [List.range'_concat, List.foldl_append, List.foldl_cons, List.foldl_nil, ih,
        gf64_square_eq _ _ Nat.one_pos, gf64_mul_reference_eq, ← power_step]
  rw [gf64_invert_ita_one, if_neg nonzero]
  simp only [chain 62]
  rw [gf64_square_eq _ _ Nat.one_pos]
  exact congrArg Word.bits (power_inverse word)

/-- The inversions of the program end, never shift by a word or more, and give the same inverse of
every word but zero. -/
theorem inverses_agree (a : BitVec 64) (nonzero : a ≠ 0) (rounds : ℕ) (room : 200 ≤ rounds) :
    ∃ b, gf64_mul_reference a b = 1 ∧ Par3Gen.invert64 rounds a.toNat = some b.toNat ∧
      gf64_inverse rounds a = some b ∧ gf64_invert_ita_one a = b := by
  refine ⟨((⟨a⟩ : Gf64)⁻¹).bits, ?_, Par3Gen.invert64_eq nonzero room,
    gf64_inverse_eq nonzero room, gf64_invert_ita_one_eq nonzero⟩
  rw [gf64_mul_reference_eq]
  exact congrArg Word.bits (mul_inv_cancel₀ (show (⟨a⟩ : Gf64) ≠ 0 from fun zero =>
    nonzero (congrArg Word.bits zero)))

/-- The inverse of two. -/
theorem inverses_agree_two : ∃ b, gf64_mul_reference 2 b = 1 ∧
    Par3Gen.invert64 200 2 = some b.toNat ∧ gf64_inverse 200 2 = some b ∧
      gf64_invert_ita_one 2 = b :=
  inverses_agree 2 (by decide) 200 le_rfl

end Par3
