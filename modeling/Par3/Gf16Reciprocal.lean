import Par3.GfmatCoeff
import Mathlib.Data.Nat.Totient
import Mathlib.GroupTheory.OrderOfElement
import Mathlib.Tactic.NormNum.Prime

/-!
# Reciprocals of the 16-bit code

Two generates the nonzero words, so that every one of them has a logarithm. The table of the
reciprocals is made from the logarithms.
-/
namespace Par3

open BinaryField Word

/-- Undoes `a ↦ a * a + a`, except for the constant coordinate. -/
def gf16IdempotentTable : List (BitVec 16) :=
  [0x15e, 0xa5b4, 0xa5b6, 0x1cf4, 0xa5b2, 0x2820, 0x1cfc, 0x530, 0xa5a2, 0x96d2, 0x2800, 0x13cc,
    0x1cbc, 0x0, 0x5b0, 0x55b0]

instance : BinaryField.Word.IsField 16 GF16_POLYNOMIAL where
  frobenius := by decide +kernel
  idempotents := ⟨gf16IdempotentTable, by decide +kernel⟩

theorem gf16_root_ne_zero : (root : Gf16) ≠ 0 := by decide

theorem gf16_root_orderOf : orderOf (root : Gf16) = 65535 := by
  apply orderOf_eq_of_pow_and_pow_div_prime (by decide) gf16_root_order
  intro prime isPrime divides
  have factors : (65535 : ℕ) = 3 * (5 * (17 * 257)) := by decide
  rw [factors, isPrime.dvd_mul, isPrime.dvd_mul, isPrime.dvd_mul,
    Nat.prime_dvd_prime_iff_eq isPrime (by norm_num), Nat.prime_dvd_prime_iff_eq isPrime (by norm_num),
    Nat.prime_dvd_prime_iff_eq isPrime (by norm_num),
    Nat.prime_dvd_prime_iff_eq isPrime (by norm_num)] at divides
  obtain rfl | rfl | rfl | rfl := divides
  · change pow root 21845 ≠ 1
    decide +kernel
  · change pow root 13107 ≠ 1
    decide +kernel
  · change pow root 3855 ≠ 1
    decide +kernel
  · change pow root 255 ≠ 1
    decide +kernel

/-- The power of two that the loop over the logarithms is at. -/
def gfPower (exp : ℕ) : ℕ := gfDouble^[exp] 1

theorem gfPower_spec (exp : ℕ) : gfPower exp < 2 ^ 16 ∧ gf16OfNat (gfPower exp) = root ^ exp := by
  obtain ⟨below, power⟩ := @gf16OfNat_doubles 1 (by decide) exp
  have unit : gf16OfNat 1 = 1 := rfl
  rw [unit, mul_one] at power
  exact ⟨below, power⟩

theorem gfPower_injOn : Set.InjOn gfPower (Set.Iio 65535) := by
  intro first firstInside second secondInside same
  apply @pow_injOn_Iio_orderOf _ _ (root : Gf16)
  · rw [gf16_root_orderOf]
    exact firstInside
  · rw [gf16_root_orderOf]
    exact secondInside
  · change root ^ first = root ^ second
    rw [← (gfPower_spec first).2, ← (gfPower_spec second).2, same]

/-- Every number of a nonzero word is a power of two. -/
theorem exists_gfPower {n : ℕ} (pos : 0 < n) (small : n < 2 ^ 16) :
    ∃ exp < 65535, gfPower exp = n := by
  have inside : (Finset.range 65535).image gfPower ⊆ Finset.Icc 1 65535 := by
    intro value member
    obtain ⟨exp, -, rfl⟩ := Finset.mem_image.mp member
    obtain ⟨below, power⟩ := gfPower_spec exp
    rw [Finset.mem_Icc]
    refine ⟨Nat.one_le_iff_ne_zero.mpr ?_, by omega⟩
    intro zero
    rw [zero] at power
    exact pow_ne_zero exp gf16_root_ne_zero power.symm
  have all : (Finset.range 65535).image gfPower = Finset.Icc 1 65535 := by
    apply Finset.eq_of_subset_of_card_le inside
    rw [Finset.card_image_of_injOn, Finset.card_range, Nat.card_Icc]
    rw [Finset.coe_range]
    exact gfPower_injOn
  have member : n ∈ (Finset.range 65535).image gfPower := by
    rw [all, Finset.mem_Icc]
    omega
  obtain ⟨exp, below, same⟩ := Finset.mem_image.mp member
  exact ⟨exp, Finset.mem_range.mp below, same⟩

/-! ## The table -/

/-- The table of the logarithms, as the loop over the inputs leaves it. -/
def gf16_log : ℕ → ℕ :=
  (List.range 65535).foldl (fun table exp => Function.update table (gfPower exp) exp) fun _ => 0

/-- The logarithm of one is set to the order, and the reciprocals are looked up from there. -/
def gf16_recip (n : ℕ) : BitVec 16 := gf16_exp (65535 - Function.update gf16_log 1 65535 n)

theorem gf16_log_gfPower {exp : ℕ} (inside : exp < 65535) : gf16_log (gfPower exp) = exp := by
  have written (count : ℕ) (few : count ≤ 65535) : (List.range count).foldl
      (fun table exp => Function.update table (gfPower exp) exp) (fun _ => 0) (gfPower exp) =
        if exp < count then exp else 0 := by
    induction count with
    | zero => rfl
    | succ count ih =>
      rw [List.range_succ, List.foldl_append, List.foldl_cons, List.foldl_nil,
        Function.update_apply, ih (by omega)]
      by_cases here : exp = count
      · rw [if_pos (congrArg gfPower here), if_pos (by omega), here]
      · rw [if_neg fun same => here (gfPower_injOn inside (by exact few) same)]
        exact if_congr (by omega) rfl rfl
  rw [gf16_log, written 65535 le_rfl, if_pos inside]

/-- The table holds the reciprocals of the nonzero words. -/
theorem gf16_recip_eq {a : Gf16} (nonzero : a ≠ 0) : (⟨gf16_recip a.bits.toNat⟩ : Gf16) = a⁻¹ := by
  have pos : 0 < a.bits.toNat := by
    apply Nat.pos_of_ne_zero
    intro zero
    exact nonzero (Word.ext (BitVec.eq_of_toNat_eq zero))
  obtain ⟨exp, inside, same⟩ := exists_gfPower pos a.bits.isLt
  have number : gf16OfNat a.bits.toNat = a := Word.ext (BitVec.ofNat_toNat _ _)
  have power : a = root ^ exp := by
    rw [← number, ← same]
    exact (gfPower_spec exp).2
  apply eq_inv_of_mul_eq_one_left
  rw [← same, gf16_recip]
  by_cases first : exp = 0
  · have one : gfPower exp = 1 := by
      rw [first]
      rfl
    rw [one, Function.update_self, power, first, pow_zero, mul_one, gf16_exp_eq (by decide)]
    rfl
  · have other : gfPower exp ≠ 1 := by
      intro one
      exact first (gfPower_injOn inside (by decide : (0 : ℕ) < 65535) one)
    rw [Function.update_of_ne other, gf16_log_gfPower inside, gf16_exp_eq (by omega), power,
      ← pow_add, Nat.sub_add_cancel inside.le, gf16_root_order]

/-! ## The logarithms of the inputs -/

/-- The logarithms of inputs share no factor with the order. -/
def InputLog (exp : ℕ) : Prop := ¬ (exp % 3 = 0 ∨ exp % 5 = 0 ∨ exp % 17 = 0 ∨ exp % 257 = 0)

instance : DecidablePred InputLog := fun _ => instDecidableNot

theorem inputLog_iff (exp : ℕ) : InputLog exp ↔ Nat.Coprime 65535 exp := by
  have factors : (65535 : ℕ) = 3 * (5 * (17 * 257)) := by decide
  rw [factors, Nat.coprime_mul_iff_left, Nat.coprime_mul_iff_left, Nat.coprime_mul_iff_left,
    Nat.Prime.coprime_iff_not_dvd (by norm_num), Nat.Prime.coprime_iff_not_dvd (by norm_num),
    Nat.Prime.coprime_iff_not_dvd (by norm_num), Nat.Prime.coprime_iff_not_dvd (by norm_num),
    InputLog]
  simp only [Nat.dvd_iff_mod_eq_zero, not_or]

theorem count_inputLog : Nat.count InputLog 65535 = 32768 := by
  have totient : Nat.totient 65535 = 32768 := by
    rw [show (65535 : ℕ) = 3 * (5 * (17 * 257)) by decide, Nat.totient_mul (by norm_num),
      Nat.totient_mul (by norm_num), Nat.totient_mul (by norm_num), Nat.totient_prime (by norm_num),
      Nat.totient_prime (by norm_num), Nat.totient_prime (by norm_num),
      Nat.totient_prime (by norm_num)]
  rw [Nat.count_eq_card_filter_range, ← totient, Nat.totient_eq_card_coprime]
  exact congrArg Finset.card (Finset.filter_congr fun exp _ => inputLog_iff exp)

/-- The search passes over no logarithm. -/
theorem count_nextInputLog (fuel exp : ℕ) :
    Nat.count InputLog (nextInputLog fuel exp) ≤ Nat.count InputLog (exp + 1) := by
  induction fuel generalizing exp with
  | zero => exact Nat.count_monotone _ (Nat.le_succ exp)
  | succ fuel ih =>
    rw [nextInputLog]
    split
    · next skipped =>
      apply (ih (exp + 1)).trans
      have none : ¬ InputLog (exp + 1) := not_not.mpr skipped
      rw [Nat.count_succ _ (exp + 1), if_neg none, Nat.add_zero]
    · exact le_rfl

theorem count_gfmat_input_log (input : ℕ) : Nat.count InputLog (gfmat_input_log input) ≤ input := by
  induction input with
  | zero => exact count_nextInputLog 65535 0
  | succ input ih =>
    apply (count_nextInputLog 65535 (gfmat_input_log input)).trans
    rw [Nat.count_succ]
    split
    · exact Nat.succ_le_succ ih
    · exact Nat.le_succ_of_le ih

/-- The logarithms of all inputs are below the order. -/
theorem gfmat_input_log_lt {input : ℕ} (inside : input < 32768) :
    gfmat_input_log input < 65535 := by
  by_contra large
  have few := count_gfmat_input_log input
  have many := Nat.count_monotone InputLog (not_lt.mp large)
  rw [count_inputLog] at many
  omega

end Par3
