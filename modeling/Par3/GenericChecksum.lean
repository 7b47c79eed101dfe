import Par3.Bytes
import Par3.Gf16Reciprocal

/-!
# The checksum of a slice

A block is folded into one word of eight bytes, and the checksum is doubled before the block is
added to it. Doubling works on the four 16-bit words in it at once.
-/
namespace Par3

open BinaryField Word

/-- One of the four 16-bit words in a 64-bit word. -/
def lane (v : BitVec 64) (index : ℕ) : Gf16 := ⟨v.extractLsb' (16 * index) 16⟩

def gf16_multi_mul2 (v : BitVec 64) : BitVec 64 :=
  let mask : BitVec 64 := 0x0001000100010001
  ((v * (2 : BitVec 64)) &&& ~~~mask) ^^^ (((v >>> 15) &&& mask) * 0x100B)

theorem lane_xor (first second : BitVec 64) (index : ℕ) :
    lane (first ^^^ second) index = lane first index + lane second index := by
  apply Word.ext
  apply BitVec.eq_of_getLsbD_eq
  intro bit inside
  change (BitVec.extractLsb' _ 16 _).getLsbD bit = (BitVec.extractLsb' _ 16 _ ^^^
    BitVec.extractLsb' _ 16 _).getLsbD bit
  simp [inside]

theorem lane_zero (index : ℕ) : lane 0 index = 0 := by
  apply Word.ext
  apply BitVec.eq_of_getLsbD_eq
  intro bit inside
  change (BitVec.extractLsb' _ 16 0#64).getLsbD bit = (0#16).getLsbD bit
  simp

theorem lane_ext {first second : BitVec 64}
    (same : ∀ index < 4, lane first index = lane second index) : first = second := by
  apply BitVec.eq_of_getLsbD_eq
  intro bit inside
  have own := congrArg (fun word : Gf16 => word.bits.getLsbD (bit % 16)) (same (bit / 16) (by omega))
  have room : bit % 16 < 16 := Nat.mod_lt _ (by decide)
  have place : 16 * (bit / 16) + bit % 16 = bit := Nat.div_add_mod bit 16
  simpa [lane, BitVec.getLsbD_extractLsb', room, place] using own

/-- The bits that leave their words, one at the beginning of each. -/
def carries (first second third fourth : Bool) : BitVec 64 :=
  BitVec.ofNat 64 (first.toNat + second.toNat * 2 ^ 16 + third.toNat * 2 ^ 32 + fourth.toNat * 2 ^ 48)

theorem carries_mul (first second third fourth : Bool) :
    ∀ index < 4, lane (carries first second third fourth * 0x100B) index =
      if [first, second, third, fourth].getD index false then ⟨GF16_POLYNOMIAL⟩ else 0 := by
  revert first second third fourth
  decide

theorem carries_getLsbD (first second third fourth : Bool) : ∀ bit < 64,
    (carries first second third fourth).getLsbD bit =
      (decide (bit = 0) && first || decide (bit = 16) && second || decide (bit = 32) && third ||
        decide (bit = 48) && fourth) := by
  revert first second third fourth
  decide

theorem mask_getLsbD : ∀ bit < 64,
    (0x0001000100010001 : BitVec 64).getLsbD bit = decide (bit % 16 = 0) := by
  decide

theorem carries_eq (v : BitVec 64) :
    (v >>> 15) &&& 0x0001000100010001 =
      carries (v.getLsbD 15) (v.getLsbD 31) (v.getLsbD 47) (v.getLsbD 63) := by
  apply BitVec.eq_of_getLsbD_eq
  intro bit inside
  rw [BitVec.getLsbD_and, BitVec.getLsbD_ushiftRight, mask_getLsbD bit inside,
    carries_getLsbD _ _ _ _ bit inside]
  by_cases start : bit % 16 = 0
  · have places : bit = 0 ∨ bit = 16 ∨ bit = 32 ∨ bit = 48 := by omega
    rcases places with rfl | rfl | rfl | rfl
    · simp
    · simp
    · simp
    · simp
  · have none : bit ≠ 0 ∧ bit ≠ 16 ∧ bit ≠ 32 ∧ bit ≠ 48 := by omega
    simp [start, none]

theorem lane_moved (v : BitVec 64) {index : ℕ} (inside : index < 4) :
    lane ((v * (2 : BitVec 64)) &&& ~~~(0x0001000100010001 : BitVec 64)) index =
      ⟨(lane v index).bits <<< 1⟩ := by
  have double : v * (2 : BitVec 64) = v <<< (1 : ℕ) := by
    apply BitVec.eq_of_toNat_eq
    simp [Nat.shiftLeft_eq]
  apply Word.ext
  apply BitVec.eq_of_getLsbD_eq
  intro bit room
  have place : 16 * index + bit < 64 := by omega
  have start : (16 * index + bit) % 16 = 0 ↔ bit = 0 := by omega
  simp only [lane, BitVec.getLsbD_extractLsb', BitVec.getLsbD_and, BitVec.getLsbD_not,
    mask_getLsbD _ place, double, BitVec.getLsbD_shiftLeft, place, room, start, decide_true,
    Bool.true_and]
  by_cases zero : bit = 0
  · simp [zero]
  · have low : ¬ bit < 1 := by omega
    have lowPlace : ¬ 16 * index + bit < 1 := by omega
    have before : 16 * index + bit - 1 = 16 * index + (bit - 1) := by omega
    have room' : bit - 1 < 16 := by omega
    simp [zero, low, lowPlace, before, room']

/-- Doubling acts on each word. -/
theorem lane_mul2 (v : BitVec 64) {index : ℕ} (inside : index < 4) :
    lane (gf16_multi_mul2 v) index = root * lane v index := by
  have top : (lane v index).bits.msb = v.getLsbD (16 * index + 15) := by
    simp [lane, BitVec.msb_eq_getLsbD_last]
  have carried : [v.getLsbD 15, v.getLsbD 31, v.getLsbD 47, v.getLsbD 63].getD index false =
      v.getLsbD (16 * index + 15) := by
    rcases (show index = 0 ∨ index = 1 ∨ index = 2 ∨ index = 3 by omega) with
      rfl | rfl | rfl | rfl
    · rfl
    · rfl
    · rfl
    · rfl
  rw [← gf16_shift, gf16_multi_mul2, lane_xor, lane_moved v inside, carries_eq,
    carries_mul _ _ _ _ index inside, carried, shift, top]
  apply Word.ext
  change _ ^^^ (Word.bits _) = _ ^^^ _
  split
  · rfl
  · rfl

/-! ## Reading and writing words -/

/-- The word that eight bytes hold; bytes that are missing are zero. -/
def read64 (buf : Buffer) : BitVec 64 := BitVec.ofNat 64 (littleEndian (buf.take 8))

/-- Write eight bytes to the front of a buffer. -/
def write64 (buf : Buffer) (value : BitVec 64) : Buffer := toLittleEndian 8 value.toNat ++ buf.drop 8

/-- A 16-bit word of a block. -/
def gf16At (buf : Buffer) (index : ℕ) : Gf16 := lane (read64 buf) index

/-! ## The checksum functions -/

def gf16_checksum_blocku_generic (src checksum : Buffer) : Buffer :=
  let remaining := src.length % 8
  let amount := src.length - remaining
  let data := (List.range (amount / 8)).foldl (fun data word => data ^^^ read64 (src.drop (8 * word))) 0
  let data := if remaining ≠ 0 then data ^^^ read64 (src.drop amount) else data
  write64 checksum (gf16_multi_mul2 (read64 checksum) ^^^ data)

def gf16_checksum_block_generic (src checksum : Buffer) : Buffer :=
  gf16_checksum_blocku_generic src checksum

/-- One turn of the loop that multiplies, from the top bit of the coefficient down. -/
def expStep (_checksum : BitVec 64) (state : BitVec 64 × BitVec 16) : BitVec 64 × BitVec 16 :=
  let res := gf16_multi_mul2 state.1
  let coeff := state.2 <<< 1
  (res ^^^ if coeff.msb then _checksum else 0, coeff)

def gf16_checksum_exp_generic (checksum : Buffer) (exp : BitVec 16) : Buffer :=
  let _checksum := read64 checksum
  let res := if exp.msb then _checksum else 0
  write64 checksum ((expStep _checksum)^[15] (res, exp)).1

/-! ## What they do to a word -/

theorem read64_write64 (buf : Buffer) (value : BitVec 64) : read64 (write64 buf value) = value := by
  have length : (toLittleEndian 8 value.toNat).length = 8 := rfl
  rw [read64, write64, List.take_append_of_le_length length.ge, List.take_of_length_le length.le,
    littleEndian_toLittleEndian 8 _ value.isLt, BitVec.ofNat_toNat, BitVec.setWidth_eq]

theorem write64_length {buf : Buffer} (long : 8 ≤ buf.length) (value : BitVec 64) :
    (write64 buf value).length = buf.length := by
  have length : (toLittleEndian 8 value.toNat).length = 8 := rfl
  rw [write64, List.length_append, length, List.length_drop]
  omega

theorem read64_nil : read64 [] = 0 := rfl

/-- A block of eight bytes, or less, is folded into the word it holds. -/
theorem blocku_generic_eq {src : Buffer} (short : src.length ≤ 8) (checksum : Buffer) :
    gf16_checksum_blocku_generic src checksum =
      write64 checksum (gf16_multi_mul2 (read64 checksum) ^^^ read64 src) := by
  rw [gf16_checksum_blocku_generic]
  by_cases whole : src.length = 8
  · simp [whole, List.range_succ]
  · have remaining : src.length % 8 = src.length := Nat.mod_eq_of_lt (by omega)
    simp only [remaining, Nat.sub_self, Nat.zero_div, List.range_zero, List.foldl_nil, List.drop_zero]
    split
    case isTrue => rw [show (0 : BitVec 64) ^^^ read64 src = read64 src from BitVec.zero_xor]
    case isFalse none =>
      have empty : src = [] := List.eq_nil_of_length_eq_zero (not_not.mp none)
      rw [empty, read64_nil]

theorem gf16At_blocku {src : Buffer} (short : src.length ≤ 8) (checksum : Buffer) {index : ℕ}
    (inside : index < 4) :
    gf16At (gf16_checksum_blocku_generic src checksum) index =
      root * gf16At checksum index + gf16At src index := by
  rw [gf16At, blocku_generic_eq short, read64_write64, lane_xor, lane_mul2 _ inside]
  rfl

theorem blocku_generic_length {src checksum : Buffer} (long : 8 ≤ checksum.length) :
    (gf16_checksum_blocku_generic src checksum).length = checksum.length :=
  write64_length long _

theorem exp_generic_length {checksum : Buffer} (long : 8 ≤ checksum.length) (exp : BitVec 16) :
    (gf16_checksum_exp_generic checksum exp).length = checksum.length :=
  write64_length long _

theorem msb_shiftLeft (exp : BitVec 16) {count : ℕ} (inside : count < 16) :
    (exp <<< count).msb = decide (exp.toNat / 2 ^ (15 - count) % 2 = 1) := by
  rw [BitVec.msb_eq_getLsbD_last, BitVec.getLsbD_shiftLeft, BitVec.getLsbD, Nat.testBit_eq_decide_div_mod_eq]
  have low : ¬ 16 - 1 < count := by omega
  simp [low]

/-- Behind each turn, what was multiplied by is what the coefficient has in its top bits. -/
theorem expStep_iterate (checksum : BitVec 64) (exp : BitVec 16) {index : ℕ} (inside : index < 4)
    (count : ℕ) (few : count < 16) :
    let state := (expStep checksum)^[count] (if exp.msb then checksum else 0, exp)
    lane state.1 index = gf16OfNat (exp.toNat / 2 ^ (15 - count)) * lane checksum index ∧
      state.2 = exp <<< count := by
  have selected (bit : ℕ) (small : bit < 2) :
      lane (if decide (bit = 1) = true then checksum else 0) index =
        gf16OfNat bit * lane checksum index := by
    rcases (show bit = 0 ∨ bit = 1 by omega) with rfl | rfl
    · rw [show gf16OfNat 0 = 0 from rfl, zero_mul]
      exact lane_zero index
    · rw [show gf16OfNat 1 = 1 from rfl, one_mul]
      rfl
  induction count with
  | zero =>
    have top := msb_shiftLeft exp (show 0 < 16 by omega)
    have bit : exp.toNat / 2 ^ (15 - 0) < 2 := by
      have := exp.isLt
      omega
    rw [BitVec.shiftLeft_zero, Nat.mod_eq_of_lt bit] at top
    constructor
    · rw [Function.iterate_zero_apply, top]
      exact selected _ bit
    · exact (BitVec.shiftLeft_zero _).symm
  | succ count ih =>
    obtain ⟨value, rest⟩ := ih (by omega)
    have exponent : 15 - count = 15 - (count + 1) + 1 := by omega
    have whole : exp.toNat / 2 ^ (15 - (count + 1)) =
        (exp.toNat / 2 ^ (15 - count)) <<< 1 + exp.toNat / 2 ^ (15 - (count + 1)) % 2 := by
      rw [Nat.shiftLeft_eq, exponent, pow_succ (2 : ℕ) (15 - (count + 1)), ← Nat.div_div_eq_div_mul]
      omega
    have bit := Nat.mod_lt (exp.toNat / 2 ^ (15 - (count + 1))) Nat.zero_lt_two
    have moved : (exp.toNat / 2 ^ (15 - count)) <<< 1 < 2 ^ 16 := by
      have below : exp.toNat / 2 ^ (15 - (count + 1)) < 2 ^ 16 :=
        (Nat.div_le_self _ _).trans_lt exp.isLt
      omega
    have taken : gf16OfNat (exp.toNat / 2 ^ (15 - (count + 1))) =
        root * gf16OfNat (exp.toNat / 2 ^ (15 - count)) +
          gf16OfNat (exp.toNat / 2 ^ (15 - (count + 1)) % 2) := by
      have lowBit : exp.toNat / 2 ^ (15 - (count + 1)) % 2 < 2 ^ 1 := bit
      conv_lhs => rw [whole]
      rw [gf16OfNat_split _ lowBit, gf16OfNat_shift moved, pow_one]
    dsimp only at value rest ⊢
    rw [Function.iterate_succ_apply']
    constructor
    · rw [expStep, lane_xor, lane_mul2 _ inside, value, rest, ← BitVec.shiftLeft_add,
        msb_shiftLeft exp few, selected _ bit, taken]
      ring
    · rw [expStep, rest, ← BitVec.shiftLeft_add]

/-- The checksum is multiplied by the coefficient. -/
theorem gf16At_exp (checksum : Buffer) (exp : BitVec 16) {index : ℕ} (inside : index < 4) :
    gf16At (gf16_checksum_exp_generic checksum exp) index = ⟨exp⟩ * gf16At checksum index := by
  have loop := (expStep_iterate (read64 checksum) exp inside 15 (by omega)).1
  have value : gf16OfNat (exp.toNat / 2 ^ (15 - 15)) = ⟨exp⟩ := by
    rw [Nat.sub_self, pow_zero, Nat.div_one, gf16OfNat, BitVec.ofNat_toNat, BitVec.setWidth_eq]
  rw [value] at loop
  rw [gf16At, gf16_checksum_exp_generic, read64_write64]
  exact loop

end Par3
