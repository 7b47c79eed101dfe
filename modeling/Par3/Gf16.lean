import Par3.Foundations.BinaryField
import Par3.Foundations.HornerChecksum

/-!
# The field of the 16-bit code

Words of 16 bits are reduced by `x^16 + x^12 + x^3 + x + 1`. Four of them lie side by side in a
64-bit word and are doubled at once. Powers of two come from a table of every eighth power, whose
missing low bits are made up for by a shift and a table of the reductions that follow.
-/
namespace Par3

/-- The low part of the reduction polynomial. -/
def GF16_POLYNOMIAL : BitVec 16 := 0x100B

/-- A word of the 16-bit code. -/
abbrev Gf16 := BinaryField.Word 16 GF16_POLYNOMIAL

instance instNeZeroGf16 : NeZero 16 := ⟨by decide⟩

open BinaryField Word

/-- Two generates the nonzero words. -/
theorem gf16_root_order : (root : Gf16) ^ 65535 = 1 := by
  change pow root 65535 = 1
  decide +kernel

theorem gf16_shift (a : Gf16) : shift a = root * a := by
  apply denote_injective
  rw [denote_mul, denote_root, denote_shift]

/-! ## Powers of two -/

/-- A number as a word. -/
def gf16OfNat (value : ℕ) : Gf16 := ⟨BitVec.ofNat 16 value⟩

/-- The step of the loops that build the tables. -/
def gfDouble (n : ℕ) : ℕ :=
  let n := n <<< 1
  if n > 65535 then n ^^^ 0x1100B else n

/-- The table: every eighth power of two, and behind them the reductions of what a shift by up to
seven bits moves out of a word. -/
def gf_exp (index : ℕ) : ℕ :=
  if index < 8192 then gfDouble^[8 * index] 1 else gfDouble^[7] ((index - 8192) <<< 9)

def gf16_exp (v : ℕ) : BitVec 16 :=
  let result := gf_exp (v >>> 3) <<< (v &&& 7)
  BitVec.ofNat 16 (result ^^^ gf_exp (8192 + result >>> 16))

theorem gf16OfNat_xor (first second : ℕ) :
    gf16OfNat (first ^^^ second) = gf16OfNat first + gf16OfNat second := by
  apply Word.ext
  exact BitVec.ofNat_xor

theorem gf16OfNat_shiftLeft (value : ℕ) :
    BitVec.ofNat 16 (value <<< 1) = BitVec.ofNat 16 value <<< 1 := by
  apply BitVec.eq_of_toNat_eq
  simp only [BitVec.toNat_ofNat, BitVec.toNat_shiftLeft, Nat.shiftLeft_eq]
  omega

theorem gfDouble_lt {n : ℕ} (small : n < 2 ^ 16) : gfDouble n < 2 ^ 16 := by
  simp only [gfDouble]
  split
  case isTrue over_ =>
    rw [Nat.shiftLeft_eq] at over_ ⊢
    have top : n * 2 ^ 1 / 2 ^ 16 = 1 := by omega
    have cleared : (n * 2 ^ 1 ^^^ 0x1100B) / 2 ^ 16 = 0 := by
      rw [Nat.xor_div_two_pow, top]
      rfl
    omega
  case isFalse within => omega

theorem gf16OfNat_double {n : ℕ} (small : n < 2 ^ 16) :
    gf16OfNat (gfDouble n) = root * gf16OfNat n := by
  rw [← gf16_shift]
  apply Word.ext
  have top : (BitVec.ofNat 16 n).msb = decide (n <<< 1 > 65535) := by
    rw [BitVec.msb_eq_decide, BitVec.toNat_ofNat, Nat.mod_eq_of_lt small, Nat.shiftLeft_eq]
    apply decide_eq_decide.mpr
    omega
  simp only [gf16OfNat, shift, top, gfDouble, decide_eq_true_eq]
  split
  · rw [BitVec.ofNat_xor, gf16OfNat_shiftLeft]
    rfl
  · rw [gf16OfNat_shiftLeft]
    exact (BitVec.xor_zero).symm

theorem gf16OfNat_doubles {n : ℕ} (small : n < 2 ^ 16) (count : ℕ) :
    gfDouble^[count] n < 2 ^ 16 ∧ gf16OfNat (gfDouble^[count] n) = root ^ count * gf16OfNat n := by
  induction count with
  | zero =>
    constructor
    · exact small
    · rw [pow_zero, one_mul]
      rfl
  | succ count ih =>
    obtain ⟨below, value⟩ := ih
    rw [Function.iterate_succ_apply']
    constructor
    · exact gfDouble_lt below
    · rw [gf16OfNat_double below, value, pow_succ']
      ring

/-- A shift that stays inside a word multiplies by a power of two. -/
theorem gf16OfNat_shift {n count : ℕ} (small : n <<< count < 2 ^ 16) :
    gf16OfNat (n <<< count) = root ^ count * gf16OfNat n := by
  induction count with
  | zero => rw [Nat.shiftLeft_zero, pow_zero, one_mul]
  | succ count ih =>
    have one : n <<< (count + 1) = (n <<< count) <<< 1 := Nat.shiftLeft_add n count 1
    rw [one, Nat.shiftLeft_eq _ 1] at small
    have below : n <<< count < 2 ^ 16 := by omega
    have double : gfDouble (n <<< count) = (n <<< count) <<< 1 := by
      rw [gfDouble, Nat.shiftLeft_eq _ 1, if_neg (by omega)]
    rw [one, ← double, gf16OfNat_double below, ih below, pow_succ']
    ring

theorem shiftLeft_add_eq_xor {low count : ℕ} (high : ℕ) (small : low < 2 ^ count) :
    high <<< count + low = high <<< count ^^^ low := by
  rw [Nat.shiftLeft_add_eq_or_of_lt small]
  apply Nat.eq_of_testBit_eq
  intro bit
  rw [Nat.testBit_or, Nat.testBit_xor, Nat.testBit_shiftLeft]
  by_cases above : count ≤ bit
  · have clear : low.testBit bit = false :=
      Nat.testBit_lt_two_pow (small.trans_le (Nat.pow_le_pow_right Nat.zero_lt_two above))
    rw [clear, Bool.or_false, Bool.xor_false]
  · rw [decide_eq_false above, Bool.false_and, Bool.false_or, Bool.false_xor]

theorem gf16OfNat_split {low count : ℕ} (high : ℕ) (small : low < 2 ^ count) :
    gf16OfNat (high <<< count + low) = gf16OfNat (high <<< count) + gf16OfNat low := by
  rw [shiftLeft_add_eq_xor high small, gf16OfNat_xor]

/-- What a shift moves out of a word is reduced by the second table. -/
theorem shifted_reduced {n count : ℕ} (small : n < 2 ^ 16) (few : count < 8) :
    gf16OfNat (n <<< count ^^^ gf_exp (8192 + n <<< count >>> 16)) = root ^ count * gf16OfNat n := by
  have width : 2 ^ (16 - count) * 2 ^ count = 2 ^ 16 := by
    rw [← pow_add]
    congr 1
    omega
  have pos : 0 < 2 ^ count := Nat.two_pow_pos count
  have positive' : 0 < 2 ^ (16 - count) := Nat.two_pow_pos _
  have few' : 2 ^ count ≤ 2 ^ 7 := Nat.pow_le_pow_right Nat.zero_lt_two (by omega)
  have high : n <<< count >>> 16 = n / 2 ^ (16 - count) := by
    rw [Nat.shiftLeft_eq, Nat.shiftRight_eq_div_pow, ← width, Nat.mul_div_mul_right _ _ pos]
  have highSmall : n / 2 ^ (16 - count) < 2 ^ count := by
    rw [Nat.div_lt_iff_lt_mul positive', Nat.mul_comm, width]
    exact small
  have lowSmall := Nat.mod_lt n positive'
  have parts : n = (n / 2 ^ (16 - count)) <<< (16 - count) + n % 2 ^ (16 - count) := by
    rw [Nat.shiftLeft_eq, Nat.mul_comm]
    exact (Nat.div_add_mod n _).symm
  rw [high]
  generalize n / 2 ^ (16 - count) = top at *
  generalize n % 2 ^ (16 - count) = low at *
  have lowMoved : low <<< count < 2 ^ 16 := by
    rw [Nat.shiftLeft_eq, ← width]
    exact Nat.mul_lt_mul_of_pos_right lowSmall pos
  have topMoved : top <<< (16 - count) < 2 ^ 16 := by
    rw [Nat.shiftLeft_eq, ← width, Nat.mul_comm]
    exact Nat.mul_lt_mul_of_pos_left highSmall positive'
  have topNine : top <<< 9 < 2 ^ 16 := by
    rw [Nat.shiftLeft_eq]
    omega
  have moved : n <<< count = top <<< 16 + low <<< count := by
    rw [parts]
    simp only [Nat.shiftLeft_eq, Nat.add_mul, Nat.mul_assoc, width]
  have gone : gf16OfNat (top <<< 16) = 0 := by
    apply Word.ext
    apply BitVec.eq_of_toNat_eq
    rw [gf16OfNat, BitVec.toNat_ofNat, Nat.shiftLeft_eq, Nat.mul_mod_left]
    rfl
  have reduced : gf16OfNat (gf_exp (8192 + top)) = root ^ 16 * gf16OfNat top := by
    have table : gf_exp (8192 + top) = gfDouble^[7] (top <<< 9) := by
      rw [gf_exp, if_neg (by omega), Nat.add_sub_cancel_left]
    rw [table, (gf16OfNat_doubles topNine 7).2, gf16OfNat_shift topNine, ← mul_assoc, ← pow_add]
  have power : (root : Gf16) ^ count * root ^ (16 - count) = root ^ 16 := by
    rw [← pow_add]
    congr 1
    omega
  rw [gf16OfNat_xor, reduced, moved, gf16OfNat_split top lowMoved, gone, zero_add,
    gf16OfNat_shift lowMoved]
  conv_rhs => rw [parts, gf16OfNat_split top lowSmall, gf16OfNat_shift topMoved, mul_add, ← mul_assoc,
    power]
  exact add_comm _ _

/-- `gf16_exp` is a power of two, for every exponent that its callers pass. -/
theorem gf16_exp_eq {v : ℕ} (small : v < 2 ^ 16) : (⟨gf16_exp v⟩ : Gf16) = root ^ v := by
  have index : v >>> 3 < 8192 := by
    rw [Nat.shiftRight_eq_div_pow]
    omega
  have low : v &&& 7 = v % 8 := Nat.and_two_pow_sub_one_eq_mod v 3
  have one : (1 : ℕ) < 2 ^ 16 := by decide
  obtain ⟨below, power⟩ := gf16OfNat_doubles one (8 * (v >>> 3))
  have unit : gf16OfNat 1 = 1 := rfl
  have table : gf_exp (v >>> 3) = gfDouble^[8 * (v >>> 3)] 1 := if_pos index
  rw [← table] at below power
  have reduced := shifted_reduced below (show v &&& 7 < 8 by omega)
  rw [power, unit, mul_one, ← pow_add] at reduced
  have exponent : (v &&& 7) + 8 * (v >>> 3) = v := by
    rw [low, Nat.shiftRight_eq_div_pow]
    omega
  rw [exponent] at reduced
  exact reduced

end Par3
