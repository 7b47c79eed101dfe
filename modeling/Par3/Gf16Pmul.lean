import Par3.Foundations.VectorLanes
import Par3.Foundations.BinaryPolynomial
import Par3.Gf16

/-!
# Products word by word

`gf16pmul` multiplies the words of two rows in pairs. Carry-less products of the even words and of the
odd words are blended, so that each double word holds the product of its words, and all products are
reduced together by shifts.
-/

namespace Par3

open VectorLanes BinaryPolynomial BinaryField Word

/-! ## Instructions -/

namespace Sse

/-- `_mm_clmulepi64_si128` -/
def clmulepi64_si128 (a b : BitVec 128) (imm : ℕ) : BitVec 128 :=
  BitVec.ofNat 128 (clmul (laneOf 64 a (imm % 2)).toNat (laneOf 64 b (imm / 16 % 2)).toNat)

/-- `_mm_set1_epi32` -/
def set1_epi32 (value : BitVec 32) : BitVec 128 := pack 128 fun _ => value

/-- `_mm_andnot_si128` -/
def andnot (a b : BitVec 128) : BitVec 128 := ~~~a &&& b

/-- `_mm_blend_epi16` -/
def blend_epi16 (a b : BitVec 128) (imm : ℕ) : BitVec 128 :=
  pack 128 fun i => if imm.testBit i then laneOf 16 b i else laneOf 16 a i

/-- `_mm_shuffle_epi8`, with the bytes of the mask from the lowest on. -/
def shuffle_epi8 (a : BitVec 128) (mask : List ℕ) : BitVec 128 :=
  pack 128 fun i => if mask.getD i 0 < 128 then laneOf 8 a (mask.getD i 0 % 16) else 0

/-- `_mm_unpacklo_epi64` -/
def unpacklo_epi64 (a b : BitVec 128) : BitVec 128 :=
  pack 128 fun i => if i = 0 then laneOf 64 a 0 else laneOf 64 b 0

/-- `_mm_unpackhi_epi64` -/
def unpackhi_epi64 (a b : BitVec 128) : BitVec 128 :=
  pack 128 fun i => if i = 0 then laneOf 64 a 1 else laneOf 64 b 1

def srli_epi16 (a : BitVec 128) (count : ℕ) : BitVec 128 := pack 128 fun i => laneOf 16 a i >>> count

def slli_epi16 (a : BitVec 128) (count : ℕ) : BitVec 128 := pack 128 fun i => laneOf 16 a i <<< count

def add_epi16 (a b : BitVec 128) : BitVec 128 := pack 128 fun i => laneOf 16 a i + laneOf 16 b i

end Sse

open Sse

/-! ## The kernel -/

/-- The products of the low and of the high halves. -/
def gf16pmul_initmul (data1 data2 : BitVec 128) : BitVec 128 × BitVec 128 :=
  let wordMask := set1_epi32 0xffff
  let data1Even := wordMask &&& data1
  let data1Odd := andnot wordMask data1
  let data2Even := wordMask &&& data2
  let data2Odd := andnot wordMask data2
  let prod1Even := clmulepi64_si128 data1Even data2Even 0x00
  let prod2Even := clmulepi64_si128 data1Even data2Even 0x11
  let prod1Odd := clmulepi64_si128 data1Odd data2Odd 0x00
  let prod2Odd := clmulepi64_si128 data1Odd data2Odd 0x11
  (blend_epi16 prod1Even prod1Odd 0xCC, blend_epi16 prod2Even prod2Odd 0xCC)

/-- Low words first, then high words. -/
def shufLoHi : List ℕ := [0, 1, 4, 5, 8, 9, 12, 13, 2, 3, 6, 7, 10, 11, 14, 15]

/-- What the loop computes from a register of each row. -/
def gf16pmul_reg (data1 data2 : BitVec 128) : BitVec 128 :=
  let (prod1, prod2) := gf16pmul_initmul data1 data2
  let tmp1 := shuffle_epi8 prod1 shufLoHi
  let tmp2 := shuffle_epi8 prod2 shufLoHi
  let rem := unpacklo_epi64 tmp1 tmp2
  let quot := unpackhi_epi64 tmp1 tmp2
  let tmp1 := quot ^^^ srli_epi16 quot 4
  let tmp1 := tmp1 ^^^ srli_epi16 tmp1 8
  let quot := tmp1 ^^^ srli_epi16 quot 13
  let tmp1 := quot ^^^ slli_epi16 quot 3
  let tmp1 := tmp1 ^^^ add_epi16 quot quot
  let quot := tmp1 ^^^ slli_epi16 quot 12
  quot ^^^ rem

/-! ## Words of products -/

/-- The words of one parity in a half of a register. -/
theorem masked_half (data : BitVec 128) {half parity : ℕ} (low : half < 2) (bit : parity < 2) :
    (laneOf 64 (if parity = 0 then set1_epi32 0xffff &&& data else andnot (set1_epi32 0xffff) data)
        half).toNat =
      ((laneOf 16 data (4 * half + parity)).toNat ^^^
        (laneOf 16 data (4 * half + parity + 2)).toNat <<< 32) <<< (16 * parity) := by
  refine Nat.eq_of_testBit_eq fun bit => ?_
  have mask (place : ℕ) (inside : place < 128) :
      (set1_epi32 0xffff).getLsbD place = decide (place % 32 < 16) := by
    rw [set1_epi32, getLsbD_pack _ inside]
    have short := Nat.mod_lt place (show 0 < 32 by decide)
    interval_cases place % 32 <;> rfl
  have own (word place : ℕ) : (laneOf 16 data word).toNat.testBit place =
      (decide (place < 16) && data.getLsbD (16 * word + place)) := getLsbD_laneOf data word place
  rw [Nat.testBit_shiftLeft, Nat.testBit_xor, Nat.testBit_shiftLeft, own, own]
  change (laneOf 64 _ half).getLsbD bit = _
  rw [getLsbD_laneOf]
  interval_cases parity
  · simp only [if_true, BitVec.getLsbD_and]
    grind
  · simp only [one_ne_zero, if_false, andnot, BitVec.getLsbD_and, BitVec.getLsbD_not]
    grind

/-- The product of two pairs of words that are 32 bits apart. -/
theorem clmul_pairs (a b c d shift : ℕ) :
    clmul ((a ^^^ b <<< 32) <<< shift) ((c ^^^ d <<< 32) <<< shift) =
      (clmul a c ^^^ (clmul a d ^^^ clmul b c) <<< 32 ^^^ clmul b d <<< 64) <<< (2 * shift) := by
  apply ofBits_injective
  simp only [ofBits_clmul, ofBits_xor, ofBits_shiftLeft]
  ring

/-- A double word that stands in the place of its parity. -/
theorem dword_pairs {first mixed second parity : ℕ} (firstSmall : first < 2 ^ 32)
    (mixedSmall : mixed < 2 ^ 32) (bit : parity < 2) {pair : ℕ} (low : pair < 2) :
    laneOf 32 (BitVec.ofNat 128 ((first ^^^ mixed <<< 32 ^^^ second <<< 64) <<< (32 * parity)))
        (parity + 2 * pair) = BitVec.ofNat 32 (if pair = 0 then first else second) := by
  have outside {value : ℕ} (small : value < 2 ^ 32) (place : ℕ) (high : 32 ≤ place) :
      value.testBit place = false :=
    Nat.testBit_lt_two_pow (small.trans_le (Nat.pow_le_pow_right two_pos high))
  refine BitVec.eq_of_getLsbD_eq fun place inside => ?_
  have back : 32 * (parity + 2 * pair) + place - 32 * parity = 64 * pair + place := by omega
  rw [getLsbD_laneOf, BitVec.getLsbD_ofNat, BitVec.getLsbD_ofNat, Nat.testBit_shiftLeft,
    decide_eq_true inside, decide_eq_true (show 32 * (parity + 2 * pair) + place < 128 by omega),
    decide_eq_true (show 32 * (parity + 2 * pair) + place ≥ 32 * parity by omega), back,
    Nat.testBit_xor, Nat.testBit_xor, Nat.testBit_shiftLeft, Nat.testBit_shiftLeft, Bool.true_and,
    Bool.true_and, Bool.true_and, Bool.true_and]
  interval_cases pair
  · rw [decide_eq_false (show ¬ 64 * 0 + place ≥ 32 by omega),
      decide_eq_false (show ¬ 64 * 0 + place ≥ 64 by omega), Bool.false_and, Bool.false_and,
      Bool.xor_false, Bool.xor_false, if_pos rfl, Nat.mul_zero, Nat.zero_add]
  · rw [outside firstSmall _ (by omega), outside mixedSmall _ (by omega), Bool.and_false, Bool.false_xor,
      Bool.false_xor, decide_eq_true (show 64 * 1 + place ≥ 64 by omega), Bool.true_and,
      if_neg one_ne_zero, Nat.mul_one, Nat.add_sub_cancel_left]

/-- A word of the product of two words. -/
def productWord (a b : BitVec 16) (part : ℕ) : BitVec 16 :=
  laneOf 16 (BitVec.ofNat 32 (clmul a.toNat b.toNat)) part

/-- The products of the words of one parity in a half of a register. -/
theorem clmul_dword (x y : BitVec 128) {half parity pair : ℕ} (low : half < 2) (bit : parity < 2)
    (pairLow : pair < 2) :
    laneOf 32 (clmulepi64_si128
        (if parity = 0 then set1_epi32 0xffff &&& x else andnot (set1_epi32 0xffff) x)
        (if parity = 0 then set1_epi32 0xffff &&& y else andnot (set1_epi32 0xffff) y) (17 * half))
        (parity + 2 * pair) =
      BitVec.ofNat 32 (clmul (laneOf 16 x (4 * half + (parity + 2 * pair))).toNat
        (laneOf 16 y (4 * half + (parity + 2 * pair))).toNat) := by
  have imm : 17 * half % 2 = half := by omega
  have immHigh : 17 * half / 16 % 2 = half := by interval_cases half <;> rfl
  have small (a b : BitVec 16) : clmul a.toNat b.toNat < 2 ^ 32 := clmul_lt a.isLt b.isLt
  have both : 2 * (16 * parity) = 32 * parity := by ring
  rw [clmulepi64_si128, imm, immHigh, masked_half x low bit, masked_half y low bit, clmul_pairs, both,
    dword_pairs (small _ _) (Nat.xor_lt_two_pow (small _ _) (small _ _)) bit pairLow]
  interval_cases pair <;> rfl

theorem blend_words (a b : BitVec 128) {j part : ℕ} (inside : j < 4) (low : part < 2) :
    laneOf 16 (blend_epi16 a b 0xCC) (2 * j + part) =
      laneOf 16 (if j % 2 = 0 then a else b) (2 * j + part) := by
  rw [blend_epi16, laneOf_pack _ (by omega)]
  interval_cases j <;> interval_cases part <;> rfl

theorem initmul_words (x y : BitVec 128) {j part : ℕ} (inside : j < 4) (low : part < 2) :
    laneOf 16 (gf16pmul_initmul x y).1 (2 * j + part) =
        productWord (laneOf 16 x j) (laneOf 16 y j) part ∧
      laneOf 16 (gf16pmul_initmul x y).2 (2 * j + part) =
        productWord (laneOf 16 x (4 + j)) (laneOf 16 y (4 + j)) part := by
  have parts : j % 2 + 2 * (j / 2) = j := Nat.mod_add_div j 2
  have first := @clmul_dword x y 0 (j % 2) (j / 2) (by decide) (Nat.mod_lt _ (by decide)) (by omega)
  have second := @clmul_dword x y 1 (j % 2) (j / 2) (by decide) (Nat.mod_lt _ (by decide)) (by omega)
  rw [parts] at first second
  have word (v : BitVec 128) : laneOf 16 v (2 * j + part) = laneOf 16 (laneOf 32 v j) part :=
    (laneOf_laneOf v j rfl low).symm
  constructor
  · rw [gf16pmul_initmul, blend_words _ _ inside low, word, productWord]
    rw [Nat.mul_zero, Nat.zero_add] at first
    rw [← first]
    congr 2
    split <;> rfl
  · rw [gf16pmul_initmul, blend_words _ _ inside low, word, productWord]
    rw [Nat.mul_one, Nat.mul_one] at second
    rw [← second]
    congr 2
    split <;> rfl

theorem shuffle_words (v : BitVec 128) {i part : ℕ} (inside : i < 4) (low : part < 2) :
    laneOf 16 (shuffle_epi8 v shufLoHi) (i + 4 * part) = laneOf 16 v (2 * i + part) := by
  have place : shufLoHi.getD (2 * (i + 4 * part)) 0 = 2 * (2 * i + part) ∧
      shufLoHi.getD (2 * (i + 4 * part) + 1) 0 = 2 * (2 * i + part) + 1 := by
    interval_cases i <;> interval_cases part <;> exact ⟨rfl, rfl⟩
  have copied (byte : ℕ) (below : byte < 2) :
      laneOf 8 (laneOf 16 (shuffle_epi8 v shufLoHi) (i + 4 * part)) byte =
        laneOf 8 (laneOf 16 v (2 * i + part)) byte := by
    rw [laneOf_laneOf _ _ rfl below, laneOf_laneOf _ _ rfl below, shuffle_epi8, laneOf_pack _ (by omega)]
    interval_cases byte
    · rw [Nat.add_zero, place.1, if_pos (by omega), Nat.mod_eq_of_lt (by omega), Nat.add_zero]
    · rw [place.2, if_pos (by omega), Nat.mod_eq_of_lt (by omega)]
  exact eq_of_lanes (show 0 < 8 by decide) (by decide) copied

theorem unpacklo_words (a b : BitVec 128) {i : ℕ} (inside : i < 8) :
    laneOf 16 (unpacklo_epi64 a b) i = laneOf 16 (if i < 4 then a else b) (i % 4) := by
  have parts : 4 * (i / 4) + i % 4 = i := Nat.div_add_mod i 4
  have short : i % 4 < 4 := Nat.mod_lt i (by decide)
  have word := @laneOf_laneOf 128 16 64 4 (unpacklo_epi64 a b) (i / 4) (i % 4) rfl short
  rw [parts] at word
  rw [← word, unpacklo_epi64, laneOf_pack _ (by omega)]
  split
  case isTrue first =>
    rw [if_pos (by omega), laneOf_laneOf _ _ rfl short, Nat.mul_zero, Nat.zero_add]
  case isFalse second =>
    rw [if_neg (by omega), laneOf_laneOf _ _ rfl short, Nat.mul_zero, Nat.zero_add]

theorem unpackhi_words (a b : BitVec 128) {i : ℕ} (inside : i < 8) :
    laneOf 16 (unpackhi_epi64 a b) i = laneOf 16 (if i < 4 then a else b) (i % 4 + 4) := by
  have parts : 4 * (i / 4) + i % 4 = i := Nat.div_add_mod i 4
  have short : i % 4 < 4 := Nat.mod_lt i (by decide)
  have word := @laneOf_laneOf 128 16 64 4 (unpackhi_epi64 a b) (i / 4) (i % 4) rfl short
  rw [parts] at word
  rw [← word, unpackhi_epi64, laneOf_pack _ (by omega)]
  split
  case isTrue first =>
    rw [if_pos (by omega), laneOf_laneOf _ _ rfl short, Nat.mul_one, Nat.add_comm]
  case isFalse second =>
    rw [if_neg (by omega), laneOf_laneOf _ _ rfl short, Nat.mul_one, Nat.add_comm]

/-- A word of the products, in the order of the words. -/
theorem split_words (x y : BitVec 128) {i part : ℕ} (inside : i < 8) (low : part < 2) :
    laneOf 16 (if i < 4 then shuffle_epi8 (gf16pmul_initmul x y).1 shufLoHi
        else shuffle_epi8 (gf16pmul_initmul x y).2 shufLoHi) (i % 4 + 4 * part) =
      productWord (laneOf 16 x i) (laneOf 16 y i) part := by
  have short : i % 4 < 4 := Nat.mod_lt i (by decide)
  split
  case isTrue first =>
    rw [shuffle_words _ short low, (initmul_words x y short low).1, Nat.mod_eq_of_lt first]
  case isFalse second =>
    have place : 4 + i % 4 = i := by omega
    rw [shuffle_words _ short low, (initmul_words x y short low).2, place]

/-! ## The reduction -/

/-- The shifts of the kernel, in one word. -/
def foldQuotient (quot : BitVec 16) : BitVec 16 :=
  let tmp1 := quot ^^^ (quot >>> 4)
  let tmp1 := tmp1 ^^^ (tmp1 >>> 8)
  let quot := tmp1 ^^^ (quot >>> 13)
  let tmp1 := quot ^^^ (quot <<< 3)
  let tmp1 := tmp1 ^^^ (quot + quot)
  tmp1 ^^^ (quot <<< 12)

theorem gf16pmul_reg_word (x y : BitVec 128) {i : ℕ} (inside : i < 8) :
    laneOf 16 (gf16pmul_reg x y) i =
      foldQuotient (productWord (laneOf 16 x i) (laneOf 16 y i) 1) ^^^
        productWord (laneOf 16 x i) (laneOf 16 y i) 0 := by
  have fits : 16 * (i + 1) ≤ 128 := by omega
  have low := split_words x y inside (show 0 < 2 by decide)
  have high := split_words x y inside (show 1 < 2 by decide)
  rw [Nat.mul_zero, Nat.add_zero] at low
  rw [Nat.mul_one] at high
  simp only [gf16pmul_reg, laneOf_xor, srli_epi16, slli_epi16, add_epi16, laneOf_pack _ fits,
    unpacklo_words _ _ inside, unpackhi_words _ _ inside, low, high, foldQuotient]

theorem double_word (v : BitVec 16) : v + v = v <<< 1 := by
  apply BitVec.eq_of_toNat_eq
  rw [BitVec.toNat_add, BitVec.toNat_shiftLeft, Nat.shiftLeft_eq, pow_one, Nat.mul_two]

/-- The shifts of the kernel are linear. -/
def foldHom : Gf16 →+ Gf16 where
  toFun a := ⟨foldQuotient a.bits⟩
  map_zero' := rfl
  map_add' a b := by
    apply Word.ext
    simp only [bits_add, foldQuotient, double_word, BitVec.ushiftRight_xor_distrib,
      BitVec.shiftLeft_xor_distrib]
    ac_rfl

/-- What is left of the quotient is exact as long as a product has at most 31 bits. -/
theorem foldQuotient_eq {quot : BitVec 16} (short : quot.getLsbD 15 = false) :
    (⟨foldQuotient quot⟩ : Gf16) = ⟨GF16_POLYNOMIAL⟩ * ⟨quot⟩ := by
  have basis : ∀ i < 15, foldHom (pow root i) = ⟨GF16_POLYNOMIAL⟩ * pow root i := by decide
  have powers : (⟨quot⟩ : Gf16) = bitSum (fun i => root ^ i) quot.getLsbD 15 := by
    conv_lhs => rw [eq_bitSum (⟨quot⟩ : Gf16)]
    rw [bitSum_succ, short, if_neg Bool.false_ne_true, add_zero]
  change foldHom ⟨quot⟩ = AddMonoidHom.mulLeft (⟨GF16_POLYNOMIAL⟩ : Gf16) ⟨quot⟩
  rw [powers, map_bitSum, map_bitSum]
  exact bitSum_term_congr _ _ basis

/-- The last bit of a product of two words is never set. -/
theorem productWord_short (a b : BitVec 16) : (productWord a b 1).getLsbD 15 = false := by
  rw [productWord, getLsbD_laneOf, BitVec.getLsbD_ofNat]
  have degrees : (ofBits a.toNat * ofBits b.toNat).coeff 31 = 0 := by
    have left := ofBits_degree_lt a.isLt
    have right := ofBits_degree_lt b.isLt
    refine Polynomial.coeff_eq_zero_of_degree_lt ?_
    rw [Polynomial.degree_mul]
    by_cases none : ofBits a.toNat = 0
    · rw [none, Polynomial.degree_zero, WithBot.bot_add]
      exact WithBot.bot_lt_coe 31
    · by_cases other : ofBits b.toNat = 0
      · rw [other, Polynomial.degree_zero, WithBot.add_bot]
        exact WithBot.bot_lt_coe 31
      · rw [Polynomial.degree_eq_natDegree none, Polynomial.degree_eq_natDegree other] at *
        norm_cast at left right ⊢
        omega
  rw [← ofBits_clmul, ofBits_coeff] at degrees
  grind

/-- The kernel multiplies words. -/
theorem gf16pmul_word (a b : BitVec 16) :
    (⟨foldQuotient (productWord a b 1) ^^^ productWord a b 0⟩ : Gf16) = ⟨a⟩ * ⟨b⟩ := by
  have small : clmul a.toNat b.toNat < 2 ^ 32 := clmul_lt a.isLt b.isLt
  have parts (part : ℕ) : (productWord a b part).toNat =
      clmul a.toNat b.toNat >>> (16 * part) % 2 ^ 16 := by
    rw [productWord, laneOf, BitVec.extractLsb'_toNat, BitVec.toNat_ofNat, Nat.mod_eq_of_lt small]
  have high : (productWord a b 1).toNat = clmul a.toNat b.toNat >>> 16 := by
    rw [parts, Nat.mod_eq_of_lt]
    rw [Nat.shiftRight_eq_div_pow]
    omega
  have product : classOf GF16_POLYNOMIAL a.toNat * classOf GF16_POLYNOMIAL b.toNat =
      classOf GF16_POLYNOMIAL (clmul a.toNat b.toNat) := (classOf_clmul _ _).symm
  have split : (⟨foldQuotient (productWord a b 1) ^^^ productWord a b 0⟩ : Gf16) =
      ⟨foldQuotient (productWord a b 1)⟩ + ⟨productWord a b 0⟩ := rfl
  apply denote_injective
  rw [split, foldQuotient_eq (productWord_short a b), denote_add, denote_mul, denote_mul, denote_eq,
    denote_eq, denote_eq, denote_eq, denote_eq]
  dsimp only
  rw [product, classOf_fold (clmul _ _), high, parts, Nat.mul_zero, Nat.shiftRight_zero, add_comm]

/-! ## Rows -/

/-- `_mm_load_si128` -/
def loadWords (mat : ℕ → Gf16) (address : ℕ) : BitVec 128 := pack 128 fun i => (mat (address + i)).bits

/-- A round of the loop, with registers of so many lanes. -/
def gf16pmul_round (lanes dst src1 src2 : ℕ) (mat : ℕ → Gf16) (round : ℕ) : ℕ → Gf16 := fun address =>
  if dst + 8 * lanes * round ≤ address ∧ address < dst + 8 * lanes * (round + 1) then
    let ptr := (address - dst) / 8 * 8
    ⟨laneOf 16 (gf16pmul_reg (loadWords mat (src1 + ptr)) (loadWords mat (src2 + ptr)))
      ((address - dst) % 8)⟩
  else mat address

/-- `gf16pmul` on rows of so many words. -/
def gf16pmul (lanes dst src1 src2 words : ℕ) (mat : ℕ → Gf16) : ℕ → Gf16 :=
  (List.range (words / (8 * lanes))).foldl (gf16pmul_round lanes dst src1 src2) mat

theorem gf16pmul_load (mat : ℕ → Gf16) (src1 src2 : ℕ) {i : ℕ} (inside : i < 8) :
    (⟨laneOf 16 (gf16pmul_reg (loadWords mat src1) (loadWords mat src2)) i⟩ : Gf16) =
      mat (src1 + i) * mat (src2 + i) := by
  have fits : 16 * (i + 1) ≤ 128 := by omega
  rw [gf16pmul_reg_word _ _ inside, gf16pmul_word, loadWords, loadWords, laneOf_pack _ fits,
    laneOf_pack _ fits]

/-- Rows that are made of whole registers are multiplied word by word. -/
theorem gf16pmul_eq {lanes dst src1 src2 words : ℕ} (whole : 8 * lanes ∣ words)
    (first : src1 + words ≤ dst ∨ dst + words ≤ src1) (second : src2 + words ≤ dst ∨ dst + words ≤ src2)
    (mat : ℕ → Gf16) (address : ℕ) :
    gf16pmul lanes dst src1 src2 words mat address =
      if dst ≤ address ∧ address < dst + words then
        mat (src1 + (address - dst)) * mat (src2 + (address - dst))
      else mat address := by
  have rounds (count : ℕ) (fits : 8 * lanes * count ≤ words) (address : ℕ) :
      (List.range count).foldl (gf16pmul_round lanes dst src1 src2) mat address =
        if dst ≤ address ∧ address < dst + 8 * lanes * count then
          mat (src1 + (address - dst)) * mat (src2 + (address - dst))
        else mat address := by
    induction count generalizing address with
    | zero => rw [List.range_zero, List.foldl_nil, if_neg (by omega)]
    | succ count ih =>
      have next : 8 * lanes * (count + 1) = 8 * lanes * count + 8 * lanes := Nat.mul_succ _ _
      have earlier := ih (by omega)
      rw [List.range_succ, List.foldl_append, List.foldl_cons, List.foldl_nil, gf16pmul_round]
      by_cases here : dst + 8 * lanes * count ≤ address ∧ address < dst + 8 * lanes * (count + 1)
      · have place : (address - dst) / 8 * 8 + (address - dst) % 8 = address - dst :=
          Nat.div_add_mod' _ _
        rw [if_pos here, if_pos (by omega), gf16pmul_load _ _ _ (Nat.mod_lt _ (by decide)),
          Nat.add_assoc, Nat.add_assoc, place, earlier, earlier, if_neg (by omega), if_neg (by omega)]
      · rw [if_neg here, earlier]
        exact if_congr (by omega) rfl rfl
  obtain ⟨count, rfl⟩ := whole
  obtain rfl | pos := Nat.eq_zero_or_pos lanes
  · rw [gf16pmul, Nat.mul_zero, Nat.zero_mul, Nat.zero_div, List.range_zero, List.foldl_nil,
      if_neg (by omega)]
  · rw [gf16pmul, Nat.mul_div_cancel_left _ (by omega)]
    exact rounds count le_rfl address

end Par3
