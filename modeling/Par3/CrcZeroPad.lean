import Mathlib.Logic.Function.Iterate
import Mathlib.Tactic.IntervalCases
import Par3.HasherInput

/-!
# Zero bytes behind a CRC

The bits of a reflected CRC are the coefficients of a polynomial, the constant one on top, and
`crcBit` multiplies by the indeterminate. Behind zero bytes the register was multiplied by it eight
times for each. `crc_zeroPad` multiplies by the powers in its table instead.
-/
namespace Par3

/-- Sums of sums can be taken in the other order. -/
theorem xor_xor_comm (x y z w : BitVec 32) : x ^^^ y ^^^ (z ^^^ w) = x ^^^ z ^^^ (y ^^^ w) := by
  rw [BitVec.xor_assoc, ← BitVec.xor_assoc y z w, BitVec.xor_comm y z, BitVec.xor_assoc z y w,
    BitVec.xor_assoc]

theorem crcBit_xor (a b : BitVec 32) : crcBit (a ^^^ b) = crcBit a ^^^ crcBit b := by
  unfold crcBit
  rw [BitVec.ushiftRight_xor_distrib, BitVec.getLsbD_xor, xor_xor_comm]
  cases a.getLsbD 0 <;> cases b.getLsbD 0 <;> simp

theorem crcBit_zero : crcBit 0 = 0 := by decide

/-- The top bit is the constant polynomial one. -/
def crcOne : BitVec 32 := 0x80000000

/-! ## The product -/

/-- One term of a product. -/
def crcTerm (a b : BitVec 32) : BitVec 32 := if b.getLsbD 31 then a else 0

theorem crcTerm_xor (a a' b : BitVec 32) : crcTerm (a ^^^ a') b = crcTerm a b ^^^ crcTerm a' b := by
  unfold crcTerm
  split <;> simp

theorem crcBit_term (a b : BitVec 32) : crcBit (crcTerm a b) = crcTerm (crcBit a) b := by
  unfold crcTerm
  split
  · rfl
  · exact crcBit_zero

theorem crcMultiplyLoop_zero (a b res : BitVec 32) :
    crcMultiplyLoop 0 a b res = res ^^^ crcTerm a b := rfl

theorem crcMultiplyLoop_succ (rounds : ℕ) (a b res : BitVec 32) :
    crcMultiplyLoop (rounds + 1) a b res =
      crcMultiplyLoop rounds (crcBit a) (b <<< 1) (res ^^^ crcTerm a b) := rfl

/-- The loop is additive in what it multiplies, together with what it started from. -/
theorem crcMultiplyLoop_xor (rounds : ℕ) (a a' b res res' : BitVec 32) :
    crcMultiplyLoop rounds (a ^^^ a') b (res ^^^ res') =
      crcMultiplyLoop rounds a b res ^^^ crcMultiplyLoop rounds a' b res' := by
  induction rounds generalizing a a' b res res' with
  | zero =>
    rw [crcMultiplyLoop_zero, crcMultiplyLoop_zero, crcMultiplyLoop_zero, crcTerm_xor]
    exact xor_xor_comm _ _ _ _
  | succ rounds ih =>
    rw [crcMultiplyLoop_succ, crcMultiplyLoop_succ, crcMultiplyLoop_succ, crcTerm_xor, crcBit_xor,
      xor_xor_comm]
    exact ih _ _ _ _ _

/-- Multiplying by the indeterminate before the loop or behind it. -/
theorem crcMultiplyLoop_crcBit (rounds : ℕ) (a b res : BitVec 32) :
    crcMultiplyLoop rounds (crcBit a) b (crcBit res) = crcBit (crcMultiplyLoop rounds a b res) := by
  induction rounds generalizing a b res with
  | zero => rw [crcMultiplyLoop_zero, crcMultiplyLoop_zero, crcBit_xor, crcBit_term]
  | succ rounds ih =>
    rw [crcMultiplyLoop_succ, crcMultiplyLoop_succ, ← crcBit_term, ← crcBit_xor]
    exact ih _ _ _

theorem crc_multiply_xor (a a' b : BitVec 32) :
    crc_multiply (a ^^^ a') b = crc_multiply a b ^^^ crc_multiply a' b :=
  crcMultiplyLoop_xor 31 a a' b 0 0

theorem crc_multiply_crcBit (a b : BitVec 32) :
    crc_multiply (crcBit a) b = crcBit (crc_multiply a b) := crcMultiplyLoop_crcBit 31 a b 0

theorem crc_multiply_zero (b : BitVec 32) : crc_multiply 0 b = 0 := by
  have double := crc_multiply_xor 0 0 b
  rw [BitVec.xor_self, BitVec.xor_self] at double
  exact double

theorem crc_multiply_term (a b c : BitVec 32) :
    crc_multiply (crcTerm a b) c = crcTerm (crc_multiply a c) b := by
  unfold crcTerm
  split
  · rfl
  · exact crc_multiply_zero c

theorem crc_multiply_iterate (count : ℕ) (a b : BitVec 32) :
    crc_multiply (crcBit^[count] a) b = crcBit^[count] (crc_multiply a b) := by
  induction count with
  | zero => rfl
  | succ count ih =>
    rw [Function.iterate_succ_apply', Function.iterate_succ_apply', crc_multiply_crcBit,
      ih]

/-- A factor of what the loop multiplies is a factor of its result. -/
theorem crcMultiplyLoop_multiply (rounds : ℕ) (a b c res : BitVec 32) :
    crcMultiplyLoop rounds (crc_multiply a c) b (crc_multiply res c) =
      crc_multiply (crcMultiplyLoop rounds a b res) c := by
  induction rounds generalizing a b res with
  | zero =>
    rw [crcMultiplyLoop_zero, crcMultiplyLoop_zero, crc_multiply_xor, crc_multiply_term]
  | succ rounds ih =>
    rw [crcMultiplyLoop_succ, crcMultiplyLoop_succ, ← crc_multiply_crcBit, ← crc_multiply_term,
      ← crc_multiply_xor]
    exact ih _ _ _

theorem crcBit_twoPow (index : ℕ) (small : index < 31) :
    crcBit (BitVec.twoPow 32 (index + 1)) = BitVec.twoPow 32 index := by
  interval_cases index <;> decide

/-- From a power of two on, the loop adds the top bits of the factor. -/
theorem crcMultiplyLoop_twoPow (rounds : ℕ) (small : rounds ≤ 31) (b res : BitVec 32) :
    crcMultiplyLoop rounds (BitVec.twoPow 32 rounds) b res = res ^^^ (b >>> (31 - rounds)) := by
  induction rounds generalizing b res with
  | zero =>
    rw [crcMultiplyLoop_zero]
    congr 1
    unfold crcTerm
    ext index inside
    have behind : index ≠ 0 → b.getLsbD (31 + index) = false := fun _ =>
      BitVec.getLsbD_of_ge _ _ (by omega)
    cases top : b.getLsbD 31 <;> by_cases first : index = 0 <;> simp_all
  | succ rounds ih =>
    rw [crcMultiplyLoop_succ, crcBit_twoPow rounds (by omega), ih (by omega),
      BitVec.xor_assoc]
    congr 1
    unfold crcTerm
    ext index inside
    have source : 31 - (rounds + 1) + index = 30 - rounds + index := by omega
    have shifted : (b <<< 1).getLsbD (31 - rounds + index) =
        (decide (index ≤ rounds) && b.getLsbD (30 - rounds + index)) := by
      rw [BitVec.getLsbD_shiftLeft, show 31 - rounds + index - 1 = 30 - rounds + index by omega]
      by_cases low : index ≤ rounds
      · simp [show 31 - rounds + index < 32 by omega, show ¬31 - rounds + index < 1 by omega, low]
      · simp [show ¬31 - rounds + index < 32 by omega, low]
    rw [BitVec.getElem_xor, BitVec.getElem_ushiftRight, BitVec.getElem_ushiftRight, shifted, source]
    rcases Nat.lt_trichotomy index (rounds + 1) with low | rfl | high
    · have apart : index ≠ rounds + 1 := by omega
      cases top : b.getLsbD 31 <;> simp_all [show index ≤ rounds by omega]
    · have same : 30 - rounds + (rounds + 1) = 31 := by omega
      cases top : b.getLsbD 31 <;> simp_all
    · have behind : b.getLsbD (30 - rounds + index) = false :=
        BitVec.getLsbD_of_ge _ _ (by omega)
      have apart : index ≠ rounds + 1 := by omega
      cases top : b.getLsbD 31 <;> simp_all

theorem crc_multiply_one (b : BitVec 32) : crc_multiply crcOne b = b := by
  have loop := crcMultiplyLoop_twoPow 31 (by omega) b 0
  have same : (0 : BitVec 32) ^^^ (b >>> (31 - 31)) = b := by simp
  rw [same] at loop
  exact loop

/-- The product is commutative, since both orders multiply one by both. -/
theorem crc_multiply_comm (a b : BitVec 32) : crc_multiply a b = crc_multiply b a := by
  calc crc_multiply a b
      = crc_multiply (crc_multiply crcOne a) b := by rw [crc_multiply_one]
    _ = crcMultiplyLoop 31 (crc_multiply crcOne b) a (crc_multiply 0 b) :=
        (crcMultiplyLoop_multiply 31 crcOne a b 0).symm
    _ = crc_multiply b a := by rw [crc_multiply_zero, crc_multiply_one]; rfl

/-- Multiplying by a power of the indeterminate. -/
theorem crc_multiply_power (crc : BitVec 32) (count : ℕ) :
    crc_multiply crc (crcBit^[count] crcOne) = crcBit^[count] crc := by
  rw [crc_multiply_comm, crc_multiply_iterate, crc_multiply_one]

/-! ## The table -/

theorem crc_power_square : ∀ index < 32,
    crc_power.getD ((index + 1) % 32) 0 =
      crc_multiply (crc_power.getD index 0) (crc_power.getD index 0) := by
  decide

/-- Each entry is the square of the one before, also around the end of the table. -/
theorem crc_power_eq (index : ℕ) :
    crc_power.getD (index % 32) 0 = crcBit^[8 * 2 ^ index] crcOne := by
  induction index with
  | zero => decide
  | succ index ih =>
    have square := crc_power_square (index % 32) (Nat.mod_lt _ (by omega))
    have exponent : 8 * 2 ^ (index + 1) = 8 * 2 ^ index + 8 * 2 ^ index := by ring
    rw [Nat.mod_add_mod] at square
    rw [square, ih, crc_multiply_power, exponent, Function.iterate_add_apply]

theorem crcZeroPadLoop_eq (rounds zeroPad index : ℕ) (enough : zeroPad < 2 ^ rounds)
    (crc : BitVec 32) :
    crcZeroPadLoop rounds crc zeroPad (index % 32) = crcBit^[8 * (zeroPad * 2 ^ index)] crc := by
  induction rounds generalizing zeroPad index crc with
  | zero =>
    have none : zeroPad = 0 := by simpa using enough
    rw [none, Nat.zero_mul]
    rfl
  | succ rounds ih =>
    rw [crcZeroPadLoop]
    split
    case isFalse none =>
      rw [not_not.mp none, Nat.zero_mul]
      rfl
    case isTrue pos =>
      have next : (index % 32 + 1) &&& 31 = (index + 1) % 32 := by
        rw [show 31 = 2 ^ 5 - 1 from rfl, Nat.and_two_pow_sub_one_eq_mod]
        exact Nat.mod_add_mod _ _ _
      have low : zeroPad &&& 1 = zeroPad % 2 := Nat.and_one_is_mod zeroPad
      have half : zeroPad >>> 1 = zeroPad / 2 := by rw [Nat.shiftRight_eq_div_pow, Nat.pow_one]
      have parts := Nat.div_add_mod zeroPad 2
      rw [next, ih _ _ (by rw [half]; omega), crc_power_eq, low, half]
      have exponent : 8 * (zeroPad / 2 * 2 ^ (index + 1)) = 8 * (2 * (zeroPad / 2) * 2 ^ index) := by
        ring
      rcases Nat.mod_two_eq_zero_or_one zeroPad with even | odd
      · rw [if_neg (by omega), exponent, show 2 * (zeroPad / 2) = zeroPad by omega]
      · have whole : 8 * (zeroPad * 2 ^ index) =
            8 * (2 * (zeroPad / 2) * 2 ^ index) + 8 * 2 ^ index := by
          nth_rewrite 1 [← parts]
          rw [odd]
          ring
        rw [if_pos (by omega), crc_multiply_power, exponent, whole, Function.iterate_add_apply]

theorem foldl_crcByte_zeros (count : ℕ) (crc : BitVec 32) :
    (List.replicate count (0 : UInt8)).foldl crcByte crc = crcBit^[8 * count] crc := by
  induction count generalizing crc with
  | zero => rfl
  | succ count ih =>
    have byte : crcByte crc 0 = crcBit^[8] crc := by
      rw [crcByte]
      simp
    rw [List.replicate_succ, List.foldl_cons, ih, byte,
      ← Function.iterate_add_apply, show 8 * count + 8 = 8 * (count + 1) by ring]

/-- The CRC of data. -/
def crc32 (data : Buffer) : BitVec 32 := crc_finish crc_init data

theorem crc_finish_process (crc : BitVec 32) (block rest : Buffer) :
    crc_finish (crc_process_block crc block) rest = crc_finish crc (block ++ rest) := by
  rw [crc_finish, crc_finish, crc_process_block, List.foldl_append]

/-- The function `crc_zeroPad` computes the CRC of data with zero bytes behind. -/
theorem crc_zeroPad_crc32 (data : Buffer) (zeroPad : ℕ) :
    crc_zeroPad (crc32 data) zeroPad = crc32 (data ++ List.replicate zeroPad 0) := by
  have loop := crcZeroPadLoop_eq zeroPad.size zeroPad 0 (Nat.lt_size_self zeroPad)
    (data.foldl crcByte crc_init)
  rw [crc_zeroPad, crc32, crc32, crc_finish, crc_finish, BitVec.not_not, List.foldl_append,
    foldl_crcByte_zeros]
  rw [Nat.pow_zero, Nat.mul_one] at loop
  exact congrArg _ loop

/-- For every message, the padded checksum is that of the message with the zero bytes behind it. Their
count is a word of 64 bits. -/
theorem crc_zeroPad_message (message : Buffer) (zeroPad : BitVec 64) :
    crc_zeroPad (crc32 message) zeroPad.toNat =
      crc32 (message ++ List.replicate zeroPad.toNat 0) :=
  crc_zeroPad_crc32 message zeroPad.toNat

end Par3
