import Par3.Foundations.FallibleLoops
import Par3.Gf64Mul

/-!
# All multiplications are the same

Every multiplication gives the word whose class is the product of the classes of its factors. There
is only one such word, and so they agree with each other and with the multiplication of the field.
-/
namespace Par3

open BinaryPolynomial BinaryField Word Polynomial FallibleLoops

/-! ## Folding -/

/-- A number times the tail, before it is cut to a word. -/
def fullTail (n : ℕ) : ℕ := (n <<< 4) ^^^ (n <<< 3) ^^^ (n <<< 1) ^^^ n

theorem ofBits_tail : ofBits 27 = X ^ 4 + X ^ 3 + X + 1 := by
  have parts : (27 : ℕ) = 2 ^ 4 ^^^ 2 ^ 3 ^^^ 2 ^ 1 ^^^ 1 := by decide
  rw [parts, ofBits_xor, ofBits_xor, ofBits_xor, ofBits_two_pow, ofBits_two_pow, ofBits_two_pow,
    ofBits_one, pow_one]

theorem classOf_fullTail (n : ℕ) :
    classOf GF64_POLY (fullTail n) = classOf GF64_POLY 27 * classOf GF64_POLY n := by
  have product : ofBits (fullTail n) = ofBits 27 * ofBits n := by
    rw [fullTail, ofBits_xor, ofBits_xor, ofBits_xor, ofBits_shiftLeft, ofBits_shiftLeft,
      ofBits_shiftLeft, ofBits_tail]
    ring
  rw [classOf, product, map_mul]
  rfl

theorem timesTail_toNat (a : BitVec 64) : (timesTail a).toNat = fullTail a.toNat % 2 ^ 64 := by
  rw [timesTail, fullTail, BitVec.toNat_xor, BitVec.toNat_xor, BitVec.toNat_xor,
    BitVec.toNat_shiftLeft, BitVec.toNat_shiftLeft, BitVec.toNat_shiftLeft, Nat.xor_mod_two_pow,
    Nat.xor_mod_two_pow, Nat.xor_mod_two_pow, Nat.mod_eq_of_lt a.isLt]

theorem R_hi_lt (hi : BitVec 64) : (R_hi hi).toNat < 2 ^ 4 := by
  -- one bit, shifted into one of the low places
  have bit (a : BitVec 64) (count : ℕ) (low : count ≤ 3) : ((a &&& 1) <<< count).toNat < 2 ^ 4 := by
    have one : (a &&& 1).toNat ≤ 1 := by
      rw [BitVec.toNat_and]
      exact Nat.and_le_right
    rw [BitVec.toNat_shiftLeft, Nat.shiftLeft_eq]
    refine (Nat.mod_le _ _).trans_lt ?_
    calc (a &&& 1).toNat * 2 ^ count ≤ 1 * 2 ^ 3 :=
          Nat.mul_le_mul one (Nat.pow_le_pow_right two_pos low)
      _ < 2 ^ 4 := by norm_num
  have first (a : BitVec 64) : (a &&& 1).toNat < 2 ^ 4 := by
    have shifted := bit a 0 (Nat.zero_le _)
    rwa [BitVec.shiftLeft_zero] at shifted
  rw [R_hi, BitVec.toNat_or, BitVec.toNat_or, BitVec.toNat_or]
  exact Nat.or_lt_two_pow (Nat.or_lt_two_pow (Nat.or_lt_two_pow (first _) (bit _ 1 (by omega)))
    (bit _ 2 (by omega))) (bit _ 3 le_rfl)

/-- The upper bits of a number times the tail. -/
theorem R_hi_toNat (hi : BitVec 64) : (R_hi hi).toNat = fullTail hi.toNat >>> 64 := by
  apply Nat.eq_of_testBit_eq
  intro i
  have high (j : ℕ) (outside : 64 ≤ j) : hi.toNat.testBit j = false :=
    Nat.testBit_lt_two_pow (hi.isLt.trans_le (Nat.pow_le_pow_right two_pos outside))
  rw [Nat.testBit_shiftRight, fullTail, Nat.testBit_xor, Nat.testBit_xor, Nat.testBit_xor,
    Nat.testBit_shiftLeft, Nat.testBit_shiftLeft, Nat.testBit_shiftLeft]
  by_cases low : i < 4
  · change (R_hi hi).getLsbD i = _
    have bit (j : ℕ) : hi.toNat.testBit j = hi.getLsbD j := rfl
    simp only [bit]
    interval_cases i <;> simp [R_hi]
  · have none : (R_hi hi).toNat.testBit i = false :=
      Nat.testBit_lt_two_pow ((R_hi_lt hi).trans_le (Nat.pow_le_pow_right two_pos (by omega)))
    rw [none, high _ (by omega), high _ (by omega), high _ (by omega), high _ (by omega)]
    simp

theorem fullTail_lt {n : ℕ} (small : n < 2 ^ 4) : fullTail n < 2 ^ 64 := by
  have shifted (count : ℕ) (low : count ≤ 4) : n <<< count < 2 ^ 64 := by
    rw [Nat.shiftLeft_eq]
    calc n * 2 ^ count < 2 ^ 4 * 2 ^ 4 :=
          Nat.mul_lt_mul_of_lt_of_le small (Nat.pow_le_pow_right two_pos low) (by norm_num)
      _ ≤ 2 ^ 64 := by norm_num
  exact Nat.xor_lt_two_pow (Nat.xor_lt_two_pow (Nat.xor_lt_two_pow (shifted 4 le_rfl)
    (shifted 3 (by omega))) (shifted 1 (by omega))) (small.trans (by norm_num))

/-- The last lines reduce two halves of a product. -/
theorem classOf_reduce (lo hi : BitVec 64) : classOf GF64_POLY (reduce lo hi).toNat =
    classOf GF64_POLY lo.toNat + classOf GF64_POLY 27 * classOf GF64_POLY hi.toNat := by
  have folded := @classOf_fold 64 GF64_POLY (fullTail hi.toNat)
  have tail : GF64_POLY.toNat = 27 := rfl
  rw [tail, ← timesTail_toNat, ← R_hi_toNat, classOf_fullTail, ← classOf_fullTail (R_hi hi).toNat,
    ← Nat.mod_eq_of_lt (fullTail_lt (R_hi_lt hi)), ← timesTail_toNat] at folded
  rw [reduce, BitVec.toNat_xor, BitVec.toNat_xor, classOf_xor, classOf_xor, folded, add_assoc]

/-- Two halves of a number whose class is a product. -/
theorem reduce_eq {lo hi : BitVec 64} {a b : Gf64}
    (product : ofBits lo.toNat + X ^ 64 * ofBits hi.toNat =
      ofBits a.bits.toNat * ofBits b.bits.toNat) : reduce lo hi = (a * b).bits := by
  apply @eq_of_classOf 64 GF64_POLY
  have tail : GF64_POLY.toNat = 27 := rfl
  have multiplied := denote_mul a b
  rw [denote_eq, denote_eq, denote_eq] at multiplied
  rw [classOf_reduce, multiplied]
  have image := congrArg (AdjoinRoot.mk (modulus GF64_POLY)) product
  rw [map_add, map_mul, mk_X_pow, tail, map_mul] at image
  exact image

/-! ## Products of words -/

theorem mulWords_eq (a b : BitVec 64) : mulWords a b = ((⟨a⟩ : Gf64) * ⟨b⟩).bits := by
  have fits : clmul a.toNat b.toNat < 2 ^ 128 := clmul_lt a.isLt b.isLt
  have product : (_mm_clmulepi64_si128 a b).toNat = clmul a.toNat b.toNat := by
    rw [_mm_clmulepi64_si128, BitVec.toNat_ofNat, Nat.mod_eq_of_lt fits]
  have upper : clmul a.toNat b.toNat >>> 64 < 2 ^ 64 := by
    rw [Nat.shiftRight_eq_div_pow]
    omega
  rw [mulWords]
  apply reduce_eq
  rw [_mm_cvtsi128_si64, _mm_cvtsi128_si64, BitVec.toNat_setWidth, BitVec.toNat_setWidth,
    BitVec.toNat_ushiftRight, product, Nat.mod_eq_of_lt upper, ← ofBits_split, ofBits_clmul]

theorem low_half (a : BitVec 64) : (a &&& 0xFFFFFFFF).toNat = a.toNat % 2 ^ 32 := by
  rw [BitVec.toNat_and, ← Nat.and_two_pow_sub_one_eq_mod]
  rfl

theorem split_halves (a : BitVec 64) :
    ofBits a.toNat = ofBits (a &&& 0xFFFFFFFF).toNat + X ^ 32 * ofBits (a >>> 32).toNat := by
  rw [low_half, BitVec.toNat_ushiftRight, ← ofBits_split]

theorem high_half (a : BitVec 64) : (a >>> 32).toNat < 2 ^ 32 := by
  have bound := a.isLt
  rw [BitVec.toNat_ushiftRight, Nat.shiftRight_eq_div_pow]
  omega

/-- A product of halves fits in a word. -/
theorem clmul_halves {a b : BitVec 64} (left : a.toNat < 2 ^ 32) (right : b.toNat < 2 ^ 32) :
    ofBits (_mm_cvtsi128_si64 (_mm_clmulepi64_si128 a b)).toNat =
      ofBits a.toNat * ofBits b.toNat := by
  have fits : clmul a.toNat b.toNat < 2 ^ 64 := clmul_lt left right
  rw [_mm_cvtsi128_si64, _mm_clmulepi64_si128, BitVec.toNat_setWidth, BitVec.toNat_ofNat,
    Nat.mod_eq_of_lt (fits.trans (by norm_num)), Nat.mod_eq_of_lt fits, ofBits_clmul]

/-- The part of a product of halves that stays in the lower word. -/
theorem middle_half (a : BitVec 64) :
    ofBits ((a &&& 0xFFFFFFFF) <<< 32).toNat = X ^ 32 * ofBits (a.toNat % 2 ^ 32) := by
  have fits : (a.toNat % 2 ^ 32) <<< 32 < 2 ^ 64 := by
    rw [Nat.shiftLeft_eq]
    omega
  rw [BitVec.toNat_shiftLeft, low_half, Nat.mod_eq_of_lt fits, ofBits_shiftLeft]

theorem gf64_mul_reference_eq (a b : BitVec 64) :
    gf64_mul_reference a b = ((⟨a⟩ : Gf64) * ⟨b⟩).bits := by
  have lowA : (a &&& 0xFFFFFFFF).toNat < 2 ^ 32 := by
    rw [low_half]
    exact Nat.mod_lt _ (by norm_num)
  have lowB : (b &&& 0xFFFFFFFF).toNat < 2 ^ 32 := by
    rw [low_half]
    exact Nat.mod_lt _ (by norm_num)
  rw [gf64_mul_reference]
  apply reduce_eq
  have p00 := clmul_halves lowA lowB
  have p01 := clmul_halves lowA (high_half b)
  have p10 := clmul_halves (high_half a) lowB
  have p11 := clmul_halves (high_half a) (high_half b)
  rw [split_halves (_mm_cvtsi128_si64 _)] at p01 p10
  rw [BitVec.toNat_xor, BitVec.toNat_xor, BitVec.toNat_xor, BitVec.toNat_xor, ofBits_xor, ofBits_xor,
    ofBits_xor, ofBits_xor, middle_half, middle_half, ← low_half, ← low_half, p00, p11,
    split_halves a, split_halves b]
  linear_combination X ^ 32 * p01 + X ^ 32 * p10

/-! ## JavaScript -/

/-- The lower word of a number. -/
noncomputable def lowClass (n : ℕ) : AdjoinRoot (modulus GF64_POLY) := classOf GF64_POLY (n % 2 ^ 64)

theorem lowClass_xor (a b : ℕ) : lowClass (a ^^^ b) = lowClass a + lowClass b := by
  rw [lowClass, Nat.xor_mod_two_pow, classOf_xor]
  rfl

/-- The lower word is shifted and folded by its top bit, whatever lies above it. -/
theorem lowClass_shift (a : ℕ) :
    lowClass (if a <<< 1 &&& 0x10000000000000000 ≠ 0 then a <<< 1 ^^^ 0x1B else a <<< 1) =
      classOf GF64_POLY 2 * lowClass a := by
  have doubled : classOf GF64_POLY ((a % 2 ^ 64) <<< 1) = classOf GF64_POLY 2 * lowClass a := by
    have two : ofBits 2 = X ^ 1 := ofBits_two_pow 1
    rw [lowClass, classOf, ofBits_shiftLeft, map_mul, classOf, classOf, two]
  have same : (a <<< 1) % 2 ^ 64 = ((a % 2 ^ 64) <<< 1) % 2 ^ 64 := by
    rw [Nat.shiftLeft_eq, Nat.shiftLeft_eq]
    omega
  have top : (a <<< 1 &&& 0x10000000000000000 ≠ 0) ↔ ((a % 2 ^ 64) <<< 1) >>> 64 = 1 := by
    have mask := Nat.and_two_pow (a <<< 1) 64
    have bit := Nat.testBit_eq_decide_div_mod_eq (x := a <<< 1) (i := 64)
    rw [Nat.shiftLeft_eq] at mask bit
    rw [show (0x10000000000000000 : ℕ) = 2 ^ 64 from rfl, Nat.shiftRight_eq_div_pow, Nat.shiftLeft_eq,
      Nat.shiftLeft_eq, mask, bit]
    by_cases set : a * 2 ^ 1 / 2 ^ 64 % 2 = 1
    · rw [decide_eq_true set]
      simp only [Bool.toNat_true, one_mul, ne_eq]
      omega
    · rw [decide_eq_false set]
      simp only [Bool.toNat_false, zero_mul, ne_eq, not_true_eq_false, false_iff]
      omega
  have small : ((a % 2 ^ 64) <<< 1) >>> 64 < 2 := by
    rw [Nat.shiftRight_eq_div_pow, Nat.shiftLeft_eq]
    omega
  have folded := @classOf_fold 64 GF64_POLY ((a % 2 ^ 64) <<< 1)
  rw [doubled, ← same] at folded
  rw [folded]
  by_cases set : ((a % 2 ^ 64) <<< 1) >>> 64 = 1
  · rw [if_pos (top.mpr set), lowClass_xor, set, classOf_one, mul_one]
    rfl
  · have clear : ((a % 2 ^ 64) <<< 1) >>> 64 = 0 := by omega
    rw [if_neg fun found => set (top.mp found), clear, classOf_zero, mul_zero, add_zero]
    rfl

/-- The loop adds the product with the bits that are left. -/
theorem mulLoop_class {rounds a b result : ℕ} (room : b < 2 ^ rounds) :
    lowClass (Par3Gen.mulLoop rounds a b result) =
      lowClass result + lowClass a * classOf GF64_POLY b := by
  induction rounds generalizing a b result with
  | zero =>
    obtain rfl : b = 0 := by omega
    rw [Par3Gen.mulLoop, classOf_zero, mul_zero, add_zero]
  | succ rounds ih =>
    rw [Par3Gen.mulLoop]
    by_cases done : b = 0
    · rw [if_neg (not_not.mpr done), done, classOf_zero, mul_zero, add_zero]
    · have half : b >>> 1 < 2 ^ rounds := by
        rw [Nat.shiftRight_eq_div_pow]
        rw [Nat.pow_succ] at room
        omega
      have parts : classOf GF64_POLY b =
          classOf GF64_POLY (b % 2) + classOf GF64_POLY 2 * classOf GF64_POLY (b >>> 1) := by
        have two : ofBits 2 = X ^ 1 := ofBits_two_pow 1
        have split := ofBits_split b 1
        rw [classOf, split, map_add, map_mul, ← two]
        rfl
      rw [if_pos done]
      simp only []
      rw [ih half, lowClass_shift, parts]
      have bit : b &&& 1 = b % 2 := Nat.and_one_is_mod b
      rw [bit]
      obtain even | odd := Nat.mod_two_eq_zero_or_one b
      · rw [even, if_neg (by decide), classOf_zero]
        ring
      · rw [odd, if_pos (by decide), lowClass_xor, classOf_one]
        ring

theorem Par3Gen.gf64_mul_eq (a b : BitVec 64) :
    Par3Gen.gf64_mul a.toNat b.toNat = ((⟨a⟩ : Gf64) * ⟨b⟩).bits.toNat := by
  have multiplied := denote_mul (⟨a⟩ : Gf64) ⟨b⟩
  rw [denote_eq, denote_eq, denote_eq] at multiplied
  have masked : Par3Gen.gf64_mul a.toNat b.toNat =
      Par3Gen.mulLoop b.toNat.size a.toNat b.toNat 0 % 2 ^ 64 := Nat.and_two_pow_sub_one_eq_mod _ 64
  have word := BitVec.toNat_ofNat (Par3Gen.gf64_mul a.toNat b.toNat) 64
  rw [masked, Nat.mod_mod, ← masked] at word
  rw [← word]
  congr 1
  apply @eq_of_classOf 64 GF64_POLY
  have product := @mulLoop_class b.toNat.size a.toNat b.toNat 0 (Nat.size_le.mp le_rfl)
  rw [lowClass, lowClass, lowClass, Nat.zero_mod, classOf_zero, zero_add, Nat.mod_eq_of_lt a.isLt,
    ← masked] at product
  rw [word, product, multiplied]

/-! ## Squares -/

/-- One step moves every other group of bits to its own place. -/
theorem spread_step {width : ℕ} (pos : 0 < width) {x y mask : BitVec 64}
    (grouped : ∀ i < 64, y.getLsbD i = (decide (i / (2 * width) % 2 = 0) &&
      x.getLsbD (2 * width * (i / (4 * width)) + i % (2 * width))))
    (masked : ∀ i < 64, mask.getLsbD i = decide (i / width % 2 = 0)) (i : ℕ) (inside : i < 64) :
    ((y ||| y <<< width) &&& mask).getLsbD i = (decide (i / width % 2 = 0) &&
      x.getLsbD (width * (i / (2 * width)) + i % width)) := by
  rw [BitVec.getLsbD_and, BitVec.getLsbD_or, BitVec.getLsbD_shiftLeft, masked i inside]
  by_cases kept : i / width % 2 = 0
  · -- the place is in an even group of the smaller width
    obtain ⟨group, place, below, rfl⟩ : ∃ group place, place < width ∧ i = 2 * width * group + place := by
      refine ⟨i / width / 2, i % width, Nat.mod_lt _ pos, ?_⟩
      have parts := Nat.div_add_mod i width
      have even := Nat.div_add_mod (i / width) 2
      rw [kept, Nat.add_zero] at even
      calc i = width * (2 * (i / width / 2)) + i % width := by rw [even, parts]
        _ = 2 * width * (i / width / 2) + i % width := by ring
    have wide : 0 < 2 * width := by omega
    have half : (2 * width * group + place) / (2 * width) = group := by
      rw [Nat.mul_add_div wide, Nat.div_eq_of_lt (by omega), Nat.add_zero]
    have rest : (2 * width * group + place) % width = place := by
      rw [Nat.mul_right_comm, Nat.mul_add_mod_self_right, Nat.mod_eq_of_lt below]
    have double : (2 * width * group + place) % (2 * width) = place := by
      rw [Nat.mul_add_mod_self_left, Nat.mod_eq_of_lt (by omega)]
    have quarter (group place : ℕ) (below : place < 2 * width) :
        (2 * width * group + place) / (4 * width) = group / 2 := by
      rw [show 4 * width = 2 * width * 2 by ring, ← Nat.div_div_eq_div_mul, Nat.mul_add_div wide,
        Nat.div_eq_of_lt below, Nat.add_zero]
    rw [decide_eq_true kept, Bool.and_true, Bool.true_and, grouped _ inside, half, rest, double,
      quarter group place (by omega)]
    obtain even | odd := Nat.mod_two_eq_zero_or_one group
    · obtain ⟨pairs, rfl⟩ : ∃ pairs, group = 2 * pairs := ⟨group / 2, by omega⟩
      rw [decide_eq_true even, Bool.true_and, Nat.mul_div_cancel_left _ two_pos]
      have shifted : (decide (2 * width * (2 * pairs) + place < 64) &&
          (!decide (2 * width * (2 * pairs) + place < width) &&
            y.getLsbD (2 * width * (2 * pairs) + place - width))) = false := by
        by_cases first : pairs = 0
        · simp only [first, Nat.mul_zero, Nat.zero_add]
          rw [decide_eq_true below, Bool.not_true,
            Bool.false_and, Bool.and_false]
        · obtain ⟨before, rfl⟩ : ∃ before, pairs = before + 1 := ⟨pairs - 1, by omega⟩
          have back : 2 * width * (2 * (before + 1)) + place - width =
              2 * width * (2 * before + 1) + (width + place) := by
            have expand : 2 * width * (2 * (before + 1)) = 2 * width * (2 * before + 1) + 2 * width := by
              ring
            omega
          have odd : (2 * width * (2 * before + 1) + (width + place)) / (2 * width) % 2 = 1 := by
            rw [Nat.mul_add_div wide, Nat.div_eq_of_lt (by omega)]
            omega
          rw [back, grouped _ (by omega), odd]
          simp
      rw [← Bool.and_assoc] at shifted
      rw [shifted, Bool.or_false]
      congr 1
      ring
    · obtain ⟨pairs, rfl⟩ : ∃ pairs, group = 2 * pairs + 1 := ⟨group / 2, by omega⟩
      have back : 2 * width * (2 * pairs + 1) + place - width =
          2 * width * (2 * pairs) + (width + place) := by
        have expand : 2 * width * (2 * pairs + 1) = 2 * width * (2 * pairs) + 2 * width := by ring
        omega
      have even : (2 * width * (2 * pairs) + (width + place)) / (2 * width) % 2 = 0 := by
        rw [Nat.mul_add_div wide, Nat.div_eq_of_lt (by omega)]
        omega
      have stays : (2 * width * (2 * pairs) + (width + place)) % (2 * width) = width + place := by
        rw [Nat.mul_add_mod_self_left, Nat.mod_eq_of_lt (by omega)]
      have later : ¬2 * width * (2 * pairs + 1) + place < width := by
        have expand : 2 * width * (2 * pairs + 1) = 2 * width * (2 * pairs) + 2 * width := by ring
        omega
      rw [odd, decide_eq_false (by decide), Bool.false_and, Bool.false_or, decide_eq_true inside,
        decide_eq_false later, back, grouped _ (by omega), even, stays,
        quarter _ _ (by omega), Nat.mul_div_cancel_left _ two_pos]
      simp only [decide_true, Bool.not_false, Bool.true_and]
      congr 1
      ring
  · rw [decide_eq_false kept, Bool.and_false, Bool.false_and]

theorem spread_bits {a : BitVec 64} (small : a.toNat < 2 ^ 32) (i : ℕ) :
    (spread a).toNat.testBit i = (decide (2 ∣ i) && a.toNat.testBit (i / 2)) := by
  have high (j : ℕ) (outside : 32 ≤ j) : a.getLsbD j = false :=
    Nat.testBit_lt_two_pow (small.trans_le (Nat.pow_le_pow_right two_pos outside))
  change (spread a).getLsbD i = (_ && a.getLsbD (i / 2))
  have start : ∀ i < 64, a.getLsbD i =
      (decide (i / (2 * 16) % 2 = 0) && a.getLsbD (2 * 16 * (i / (4 * 16)) + i % (2 * 16))) := by
    intro i inside
    by_cases low : i < 32
    · rw [decide_eq_true (by omega), Bool.true_and]
      congr 1
      omega
    · rw [high i (by omega), decide_eq_false (by omega), Bool.false_and]
  have one := spread_step (by norm_num) start
    (show ∀ i < 64, (0x0000FFFF0000FFFF : BitVec 64).getLsbD i = decide (i / 16 % 2 = 0) by decide)
  have two := @spread_step 8 (by norm_num) _ _ _ one
    (show ∀ i < 64, (0x00FF00FF00FF00FF : BitVec 64).getLsbD i = decide (i / 8 % 2 = 0) by decide)
  have three := @spread_step 4 (by norm_num) _ _ _ two
    (show ∀ i < 64, (0x0F0F0F0F0F0F0F0F : BitVec 64).getLsbD i = decide (i / 4 % 2 = 0) by decide)
  have four := @spread_step 2 (by norm_num) _ _ _ three
    (show ∀ i < 64, (0x3333333333333333 : BitVec 64).getLsbD i = decide (i / 2 % 2 = 0) by decide)
  have five := @spread_step 1 (by norm_num) _ _ _ four
    (show ∀ i < 64, (0x5555555555555555 : BitVec 64).getLsbD i = decide (i / 1 % 2 = 0) by decide)
  by_cases inside : i < 64
  · rw [spread, five i inside, Nat.div_one, Nat.mod_one, Nat.one_mul, Nat.mul_one, Nat.add_zero]
    congr 1
    exact decide_eq_decide.mpr Nat.dvd_iff_mod_eq_zero.symm
  · rw [BitVec.getLsbD_of_ge _ _ (by omega), high _ (by omega), Bool.and_false]

theorem gf64_square_one_eq (a : BitVec 64) :
    gf64_square_one a = ((⟨a⟩ : Gf64) * ⟨a⟩).bits := by
  have low : (a &&& 0xFFFFFFFF).toNat < 2 ^ 32 := by
    rw [low_half]
    exact Nat.mod_lt _ (by norm_num)
  rw [gf64_square_one]
  apply reduce_eq
  rw [ofBits_square (spread_bits low), ofBits_square (spread_bits (high_half a)), split_halves a]
  have double (p : (ZMod 2)[X]) : p + p = 0 := CharTwo.add_self_eq_zero p
  linear_combination -double (ofBits (a &&& 0xFFFFFFFF).toNat * X ^ 32 * ofBits (a >>> 32).toNat)

/-! ## Lanes -/

theorem gf64_reduce_mul_512_lane (lo hi : M512) (lane : ℕ) :
    gf64_reduce_mul_512 lo hi lane = reduce (lo lane) (hi lane) := by
  simp only [gf64_reduce_mul_512, reduce, timesTail, R_hi, BitVec.xor_assoc, BitVec.or_assoc]

theorem mulBlock_lane (a b : ℕ → BitVec 64) (i : ℕ) {lane : ℕ} (inside : lane < 8) :
    mulBlock a b i lane = mulWords (a (i + lane)) (b (i + lane)) := by
  interval_cases lane <;> exact gf64_reduce_mul_512_lane _ _ _

theorem foldl_update_range' (value : ℕ → BitVec 64) (start count : ℕ) (out : ℕ → BitVec 64)
    (index : ℕ) :
    (List.range' start count).foldl (fun out i => Function.update out i (value i)) out index =
      if start ≤ index ∧ index < start + count then value index else out index := by
  induction count with
  | zero =>
    rw [if_neg (by omega)]
    rfl
  | succ count ih =>
    rw [List.range'_concat, List.foldl_append, List.foldl_cons, List.foldl_nil, Nat.one_mul]
    by_cases here : index = start + count
    · rw [here, Function.update_self, if_pos (by omega)]
    · rw [Function.update_of_ne here, ih]
      exact if_congr (by omega) rfl rfl

theorem gf64_mul_avx512_eq (out a b : ℕ → BitVec 64) {N index : ℕ} (inside : index < N) :
    gf64_mul_avx512 out a b N index = ((⟨a index⟩ : Gf64) * ⟨b index⟩).bits := by
  have blocks (count : ℕ) : (List.range count).foldl (fun (out : ℕ → BitVec 64) bl index =>
      if bl * 8 ≤ index ∧ index < bl * 8 + 8 then mulBlock a b (bl * 8) (index - bl * 8)
      else out index) out index =
        if index < count * 8 then mulWords (a index) (b index) else out index := by
    induction count with
    | zero =>
      rw [if_neg (by omega)]
      rfl
    | succ count ih =>
      rw [List.range_succ, List.foldl_append, List.foldl_cons, List.foldl_nil, ih]
      by_cases here : count * 8 ≤ index ∧ index < count * 8 + 8
      · rw [if_pos here, if_pos (by omega), mulBlock_lane a b _ (by omega), Nat.add_sub_cancel' here.1]
      · rw [if_neg here]
        exact if_congr (by omega) rfl rfl
  rw [gf64_mul_avx512]
  rw [foldl_update_range', blocks]
  by_cases single : N / 8 * 8 ≤ index
  · rw [if_pos (by omega), gf64_mul_reference_eq]
  · rw [if_neg (by omega), if_pos (by omega), mulWords_eq]

theorem gf64_square_eq (out input : ℕ → BitVec 64) {N index : ℕ} (inside : index < N) :
    gf64_square out input N index = ((⟨input index⟩ : Gf64) * ⟨input index⟩).bits := by
  rw [gf64_square, List.range_eq_range', foldl_update_range', if_pos (by omega), gf64_square_one_eq]

/-! ## Squares in place -/

theorem square_vector_eq (values : ℕ → BitVec 64) (n : ℕ) :
    gf64_square_vector_in_place values n =
      fun index => if index < n then gf64_square_one (values index) else values index :=
  foldl_update_range (fun _ => gf64_square_one) n values

theorem squareBlock_lane (values : ℕ → BitVec 64) (i lane : ℕ) :
    squareBlock values i lane = gf64_square_one (values (i + lane)) := by
  simp only [squareBlock, gf64_reduce_square_512, gf64_reduce_mul_512_lane, gf64_swar_spread_512,
    gf64_square_one]

/-- A block that is read before it is written squares its words in place. -/
theorem square_block_eq (values : ℕ → BitVec 64) (base : ℕ) :
    (List.range 8).foldl (fun (entries : ℕ → BitVec 64) lane =>
        Function.update entries (base + lane) (squareBlock values base lane)) values =
      (List.range 8).foldl (fun entries lane =>
        Function.update entries (base + lane) (gf64_square_one (entries (base + lane)))) values := by
  rw [foldl_update_from fun lane _ => squareBlock values base lane,
    foldl_update_from fun _ => gf64_square_one]
  funext index
  split
  · rename_i within
    rw [squareBlock_lane, Nat.add_sub_cancel' within.1]
  · rfl

theorem gf64_square_avx512_eq (values : ℕ → BitVec 64) (N : ℕ) :
    gf64_square_avx512 values N = gf64_square_vector_in_place values N := by
  have whole : N = N / 8 * 8 + (N - N / 8 * 8) := by omega
  have joined : gf64_square_vector_in_place values N = (List.range (N - N / 8 * 8)).foldl
      (fun values i => Function.update values (N / 8 * 8 + i)
        (gf64_square_one (values (N / 8 * 8 + i))))
      ((List.range (N / 8 * 8)).foldl
        (fun values i => Function.update values i (gf64_square_one (values i))) values) := by
    rw [gf64_square_vector_in_place]
    nth_rewrite 1 [whole]
    rw [List.range_add, List.foldl_append, List.foldl_map]
  rw [joined, ← foldl_batches]
  simp only [gf64_square_avx512, square_block_eq]

theorem gf64_square_avx512_word (values : ℕ → BitVec 64) {N index : ℕ} (inside : index < N) :
    gf64_square_avx512 values N index = ((⟨values index⟩ : Gf64) * ⟨values index⟩).bits := by
  rw [gf64_square_avx512_eq, square_vector_eq]
  exact (if_pos inside).trans (gf64_square_one_eq _)

/-! ## One multiplication -/

theorem modulus_eq : modulus GF64_POLY = X ^ 64 + X ^ 4 + X ^ 3 + X + 1 := by
  rw [modulus, poly_eq, show GF64_POLY.toNat = 27 from rfl, ofBits_tail]
  ring

/-- Every multiplication gives the product of the polynomials of its factors, reduced by
`x^64 + x^4 + x^3 + x + 1`, and so all are one commutative, associative and distributive
multiplication. -/
theorem multiplications_agree (a b : BitVec 64) :
    ofBits (gf64_mul_reference a b).toNat =
        (ofBits a.toNat * ofBits b.toNat) %ₘ (X ^ 64 + X ^ 4 + X ^ 3 + X + 1) ∧
      Par3Gen.gf64_mul a.toNat b.toNat = (gf64_mul_reference a b).toNat ∧
      gf64_mul a b = gf64_mul_reference a b ∧
      gf64_mul_combi a b = gf64_mul_reference a b ∧
      (∀ (out as bs : ℕ → BitVec 64) (N index : ℕ), index < N → as index = a → bs index = b →
        gf64_mul_avx512 out as bs N index = gf64_mul_reference a b) ∧
      gf64_square_one a = gf64_mul_reference a a ∧
      (∀ (out input : ℕ → BitVec 64) (N index : ℕ), index < N → input index = a →
        gf64_square out input N index = gf64_mul_reference a a) ∧
      (∀ (values : ℕ → BitVec 64) (N index : ℕ), index < N → values index = a →
        gf64_square_avx512 values N index = gf64_mul_reference a a) ∧
      gf64_mul_reference a b = gf64_mul_reference b a ∧
      (∀ c, gf64_mul_reference (gf64_mul_reference a b) c =
        gf64_mul_reference a (gf64_mul_reference b c)) ∧
      ∀ c, gf64_mul_reference a (b ^^^ c) = gf64_mul_reference a b ^^^ gf64_mul_reference a c := by
  refine ⟨?_, ?_, ?_, ?_, ?_, ?_, ?_, ?_, ?_, ?_, ?_⟩
  · rw [gf64_mul_reference_eq, ← modulus_eq, ← poly_eq, ← poly_eq, ← poly_eq]
    exact poly_mul _ _
  · rw [Par3Gen.gf64_mul_eq, gf64_mul_reference_eq]
  · rw [gf64_mul, mulWords_eq, gf64_mul_reference_eq]
  · rw [gf64_mul_combi, mulWords_eq, gf64_mul_reference_eq]
  · rintro out as bs N index inside rfl rfl
    rw [gf64_mul_avx512_eq out as bs inside, gf64_mul_reference_eq]
  · rw [gf64_square_one_eq, gf64_mul_reference_eq]
  · rintro out input N index inside rfl
    rw [gf64_square_eq out input inside, gf64_mul_reference_eq]
  · rintro values N index inside rfl
    rw [gf64_square_avx512_word values inside, gf64_mul_reference_eq]
  · rw [gf64_mul_reference_eq, gf64_mul_reference_eq, mul_comm]
  · intro c
    rw [gf64_mul_reference_eq, gf64_mul_reference_eq, gf64_mul_reference_eq, gf64_mul_reference_eq]
    exact congrArg Word.bits (mul_assoc (⟨a⟩ : Gf64) ⟨b⟩ ⟨c⟩)
  · intro c
    rw [gf64_mul_reference_eq, gf64_mul_reference_eq, gf64_mul_reference_eq]
    exact congrArg Word.bits (mul_add (⟨a⟩ : Gf64) ⟨b⟩ ⟨c⟩)

end Par3
