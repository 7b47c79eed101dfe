import Par3.ShuffleTables

/-!
# The tables hold products

The tables of a nibble hold the low and the high bytes of the products of the coefficient by the sixteen
values of that nibble, in every lane. The sixteen products of the lowest nibble are sums of the coefficient
and three of its doubles. The high byte of what is reduced is the nibble that leaves the word, moved up,
because of the form of the polynomial; then sixteen times a product is found in the tables of the next
nibble.
-/

namespace Par3

open ByteVectors BinaryField Word

/-- The product of a coefficient by a number. -/
def productOf (val : BitVec 16) (n : ℕ) : BitVec 16 := ((⟨val⟩ : Gf16) * ⟨BitVec.ofNat 16 n⟩).bits

/-- The double of a word. -/
def doubleWord (w : BitVec 16) : BitVec 16 := (shift (⟨w⟩ : Gf16)).bits

theorem productOf_xor (val : BitVec 16) (a b : ℕ) :
    productOf val (a ^^^ b) = productOf val a ^^^ productOf val b := by
  have split : (⟨BitVec.ofNat 16 (a ^^^ b)⟩ : Gf16) = ⟨BitVec.ofNat 16 a⟩ + ⟨BitVec.ofNat 16 b⟩ :=
    Word.ext BitVec.ofNat_xor
  rw [productOf, split, mul_add]
  rfl

theorem productOf_zero (val : BitVec 16) : productOf val 0 = 0 := by
  have zero : (⟨BitVec.ofNat 16 0⟩ : Gf16) = 0 := rfl
  rw [productOf, zero, mul_zero]
  rfl

theorem productOf_one (val : BitVec 16) : productOf val 1 = val := by
  have one : (⟨BitVec.ofNat 16 1⟩ : Gf16) = 1 := rfl
  rw [productOf, one, mul_one]

/-- A number that is moved up inside of a word is doubled. -/
theorem productOf_double (val : BitVec 16) {n : ℕ}
    (inside : (⟨BitVec.ofNat 16 (2 * n)⟩ : Gf16) = root * ⟨BitVec.ofNat 16 n⟩) :
    productOf val (2 * n) = doubleWord (productOf val n) := by
  rw [productOf, inside, doubleWord, gf16_shift, productOf, mul_left_comm]

theorem productOf_two (val : BitVec 16) : productOf val 2 = doubleWord val := by
  have double := productOf_double val (n := 1) (by decide)
  rwa [productOf_one] at double

theorem productOf_four (val : BitVec 16) : productOf val 4 = doubleWord (doubleWord val) := by
  have double := productOf_double val (n := 2) (by decide)
  rwa [productOf_two] at double

theorem productOf_eight (val : BitVec 16) :
    productOf val 8 = doubleWord (doubleWord (doubleWord val)) := by
  have double := productOf_double val (n := 4) (by decide)
  rwa [productOf_four] at double

namespace ShuffleTarget

variable (target : ShuffleTarget)

/-! ## The first products -/

/-- The bit that the low word carries into the high one is cleared again by the polynomial. -/
theorem GF16_MULTBY_TWO_X2_append (w : BitVec 16) :
    GF16_MULTBY_TWO_X2 (w ++ w) = doubleWord w ++ doubleWord w := by
  have last : w.getLsbD 15 = w.msb := (BitVec.msb_eq_getLsbD_last w).symm
  have top : (w ++ w : BitVec 32) >>> 31 = if w.msb then 1 else 0 := by
    refine BitVec.eq_of_getLsbD_eq fun bit below => ?_
    rw [BitVec.getLsbD_ushiftRight, BitVec.getLsbD_append, if_neg (by omega)]
    by_cases zero : bit = 0
    · rw [zero, last]
      cases w.msb <;> rfl
    · rw [BitVec.getLsbD_of_ge _ _ (by omega)]
      cases w.msb
      · simp
      · simp [zero]
  rw [GF16_MULTBY_TWO_X2, top, doubleWord, shift]
  cases same : w.msb
  · refine BitVec.eq_of_getLsbD_eq fun bit below => ?_
    rw [same] at last
    simp only [BitVec.getLsbD_xor, BitVec.getLsbD_append, BitVec.getLsbD_shiftLeft, BitVec.getLsbD_and]
    by_cases low : bit < 16
    · simp [low, below]
      grind
    · simp [low, below]
      grind
  · refine BitVec.eq_of_getLsbD_eq fun bit below => ?_
    rw [same] at last
    have tail : ∀ bit < 32, (((0x1100b : BitVec 32) ^^^ ((0x1100b &&& 0xffff) <<< 16)) &&& -1).getLsbD bit =
      ((decide (bit = 16)) ^^ GF16_POLYNOMIAL.getLsbD (bit % 16)) := by decide
    simp only [if_true, BitVec.getLsbD_xor, BitVec.getLsbD_append, BitVec.getLsbD_shiftLeft]
    rw [tail bit below]
    by_cases low : bit < 16
    · have other : bit ≠ 16 := by omega
      simp [low, below, other, Nat.mod_eq_of_lt low]
      grind
    · have place : bit % 16 = bit - 16 := by omega
      simp [low, below, place]
      grind

theorem pair_eq (val : BitVec 16) : val.setWidth 32 <<< 16 ||| val.setWidth 32 = val ++ val := by
  refine BitVec.eq_of_getLsbD_eq fun bit below => ?_
  rw [BitVec.getLsbD_or, BitVec.getLsbD_shiftLeft, BitVec.getLsbD_append, BitVec.getLsbD_setWidth,
    BitVec.getLsbD_setWidth]
  by_cases low : bit < 16
  · simp [low, below]
  · rw [BitVec.getLsbD_of_ge val bit (by omega)]
    simp [low, below, show bit - 16 < 32 by omega]

theorem high_eq (val : BitVec 16) : val.setWidth 32 <<< 16 = val ++ (0 : BitVec 16) := by
  refine BitVec.eq_of_getLsbD_eq fun bit below => ?_
  rw [BitVec.getLsbD_shiftLeft, BitVec.getLsbD_append, BitVec.getLsbD_setWidth]
  by_cases low : bit < 16
  · simp [low]
  · simp [low, below, show bit - 16 < 32 by omega]

/-- The coefficient times zero to three, and four times the coefficient everywhere. -/
theorem initial_mul_vector_words (val : BitVec 16) :
    (∀ j < 4, word (target.initial_mul_vector val).1 j = productOf val j) ∧
      ∀ j, word (target.initial_mul_vector val).2 j = productOf val 4 := by
  have three : productOf val 3 = doubleWord val ^^^ val := by
    have sum := productOf_xor val 2 1
    rwa [productOf_two, productOf_one] at sum
  have mixed : (doubleWord val ++ doubleWord val : BitVec 32) ^^^ (val ++ (0 : BitVec 16)) =
      (doubleWord val ^^^ val) ++ doubleWord val := by
    have cleared : doubleWord val ^^^ (0 : BitVec 16) = doubleWord val := BitVec.xor_zero
    rw [BitVec.xor_append, cleared]
  rw [initial_mul_vector]
  dsimp only
  rw [pair_eq, high_eq, GF16_MULTBY_TWO_X2_append, GF16_MULTBY_TWO_X2_append, mixed]
  constructor
  · -- either instruction puts the second double word behind the first
    intro j inside
    have placed : ∀ i < 8, (if target.avx = true ∨ target.MWORD_SIZE ≥ 32 then
        insert_epi32 (cvtsi32 (val ++ (0 : BitVec 16))) ((doubleWord val ^^^ val) ++ doubleWord val) 1
      else unpacklo_epi32 (cvtsi32 (val ++ (0 : BitVec 16)))
        (cvtsi32 ((doubleWord val ^^^ val) ++ doubleWord val))) i =
          ofDwords (fun dword => if dword = 0 then val ++ (0 : BitVec 16)
            else (doubleWord val ^^^ val) ++ doubleWord val) i := by
      intro i short
      split
      case isTrue => interval_cases i <;> rfl
      case isFalse => interval_cases i <;> rfl
    rw [word, placed _ (by omega), placed _ (by omega), ← word, word_ofDwords]
    interval_cases j
    · exact (extract_low val 0).trans (productOf_zero val).symm
    · exact (extract_high val 0).trans (productOf_one val).symm
    · exact (extract_low (doubleWord val ^^^ val) (doubleWord val)).trans (productOf_two val).symm
    · exact (extract_high (doubleWord val ^^^ val) (doubleWord val)).trans three.symm
  · intro j
    rw [word_set1_epi32, productOf_four]
    obtain even | odd := Nat.mod_two_eq_zero_or_one j
    · rw [even]
      exact extract_low _ _
    · rw [odd]
      exact extract_high _ _

theorem word_unpacklo_epi64 (a b : Bytes) {j : ℕ} (inside : j < 8) :
    word (unpacklo_epi64 a b) j = if j < 4 then word a j else word b (j - 4) := by
  rw [word, word, word]
  interval_cases j <;> rfl

/-- A word that is added to itself, and reduced when it was negative, is doubled. -/
theorem doubled_eq (w : BitVec 16) :
    w + w ^^^ (0x100b &&& if w.slt 0 then -1 else 0) = doubleWord w := by
  have sum : w + w = w <<< 1 := by
    apply BitVec.eq_of_toNat_eq
    rw [BitVec.toNat_add, BitVec.toNat_shiftLeft, Nat.shiftLeft_eq, pow_one, Nat.mul_two]
  have sign : w.slt 0 = w.msb := BitVec.slt_zero_eq_msb
  rw [sum, sign, doubleWord, shift]
  cases w.msb
  · rfl
  · rfl

/-- The products by the numbers up to fifteen. -/
theorem shuf0_vector_words (val : BitVec 16) {n : ℕ} (inside : n < 8) :
    word (target.shuf0_vector val).1 n = productOf val n ∧
      word (target.shuf0_vector val).2 n = productOf val (8 + n) := by
  obtain ⟨first, four⟩ := target.initial_mul_vector_words val
  have low : word (target.shuf0_vector val).1 n = productOf val n := by
    rw [shuf0_vector]
    dsimp only
    rw [word_unpacklo_epi64 _ _ inside]
    split
    case isTrue early => exact first n early
    case isFalse late =>
      have sum := productOf_xor val (n - 4) 4
      have place : (n - 4) ^^^ 4 = n := by
        interval_cases n <;> rfl
      rw [word_xor, first _ (by omega), four, ← sum, place]
  refine ⟨low, ?_⟩
  have eight : (8 ^^^ n) = 8 + n := by
    interval_cases n <;> rfl
  have product : productOf val (8 + n) = doubleWord (productOf val 4) ^^^ productOf val n := by
    rw [← eight, productOf_xor, productOf_eight, productOf_four]
  rw [product, ← low, ← doubled_eq]
  rw [shuf0_vector]
  dsimp only
  split
  case isTrue =>
    rw [ternarylogic_xor, word_xor, word_xor, word_add_epi16, word_and, word_set1_epi16,
      word_cmpgt_epi16, four, word_setzero]
  case isFalse =>
    rw [word_xor, word_xor, word_add_epi16, word_and, word_set1_epi16, word_cmpgt_epi16, four,
      word_setzero, BitVec.xor_comm (word (unpacklo_epi64 _ _) n), ← BitVec.xor_assoc]

/-! ## Multiplication by sixteen -/

/-- The low bytes of the reductions of what leaves a word. -/
def reduction (nibble : ℕ) : BitVec 8 := (productOf 0x100b nibble).extractLsb' 0 8

/-- The table that is built for the polynomial of the field. -/
theorem gf16_shuffle_init_x86_table : ∃ table, gf16_shuffle_init_x86 0x1100b = some table ∧
    ∀ nibble < 16, table nibble = reduction nibble := by
  refine ⟨_, rfl, ?_⟩
  decide

/-- What stays in a word is only moved. -/
theorem doubleWord_ofNat {m : ℕ} (inside : m < 2 ^ 15) :
    doubleWord (BitVec.ofNat 16 m) = BitVec.ofNat 16 (2 * m) := by
  have clear : (BitVec.ofNat 16 m).msb = false := by
    have small := Nat.mod_le m (2 ^ 16)
    rw [BitVec.msb_eq_decide, BitVec.toNat_ofNat]
    exact decide_eq_false (by omega)
  have moved : doubleWord (BitVec.ofNat 16 m) = BitVec.ofNat 16 m <<< 1 := by
    rw [doubleWord, shift, clear, if_neg Bool.false_ne_true]
    exact BitVec.xor_zero
  refine moved.trans (BitVec.eq_of_toNat_eq ?_)
  rw [BitVec.toNat_shiftLeft, BitVec.toNat_ofNat, BitVec.toNat_ofNat, Nat.shiftLeft_eq]
  omega

theorem doubleWord_xor (a b : BitVec 16) : doubleWord (a ^^^ b) = doubleWord a ^^^ doubleWord b := by
  have sum : (⟨a ^^^ b⟩ : Gf16) = ⟨a⟩ + ⟨b⟩ := rfl
  rw [doubleWord, doubleWord, doubleWord, gf16_shift, gf16_shift, gf16_shift, sum, mul_add]
  rfl

/-- Sixteen times a word -/
def timesSixteen (w : BitVec 16) : BitVec 16 := doubleWord (doubleWord (doubleWord (doubleWord w)))

theorem productOf_sixteen {n : ℕ} (small : n < 2 ^ 12) (val : BitVec 16) :
    productOf val (16 * n) = timesSixteen (productOf val n) := by
  have moved : ∀ m < 2 ^ 15, (⟨BitVec.ofNat 16 (2 * m)⟩ : Gf16) = root * ⟨BitVec.ofNat 16 m⟩ := by
    intro m inside
    rw [← gf16_shift, ← doubleWord_ofNat inside]
    rfl
  have place : 16 * n = 2 * (2 * (2 * (2 * n))) := by omega
  rw [place, timesSixteen, productOf_double val (moved _ (by omega)), productOf_double val (moved _ (by omega)),
    productOf_double val (moved _ (by omega)), productOf_double val (moved _ (by omega))]

/-- The highest nibble leaves the word and is reduced. -/
theorem timesSixteen_eq (w : BitVec 16) : timesSixteen w = w <<< 4 ^^^ productOf 0x100b (w >>> 12).toNat := by
  have parts : w = BitVec.ofNat 16 (w.toNat % 2 ^ 12) ^^^ BitVec.ofNat 16 ((w >>> 12).toNat * 2 ^ 12) := by
    refine BitVec.eq_of_getLsbD_eq fun bit below => ?_
    rw [BitVec.getLsbD_xor, BitVec.getLsbD_ofNat, BitVec.getLsbD_ofNat, decide_eq_true below, Bool.true_and,
      Bool.true_and, Nat.testBit_mod_two_pow, Nat.testBit_mul_two_pow, BitVec.toNat_ushiftRight, Nat.testBit_shiftRight,
      ← BitVec.getLsbD, ← BitVec.getLsbD]
    by_cases low : bit < 12
    · rw [decide_eq_true low, decide_eq_false (by omega)]
      simp
    · rw [decide_eq_false low, decide_eq_true (by omega : 12 ≤ bit)]
      simp [Nat.add_sub_cancel' (Nat.not_lt.mp low)]
  have nibble : (w >>> 12).toNat < 16 := by
    rw [BitVec.toNat_ushiftRight, Nat.shiftRight_eq_div_pow]
    have bound := w.isLt
    omega
  have high : ∀ nibble < 16, timesSixteen (BitVec.ofNat 16 (nibble * 2 ^ 12)) = productOf 0x100b nibble := by
    decide
  have low : timesSixteen (BitVec.ofNat 16 (w.toNat % 2 ^ 12)) = w <<< 4 := by
    have bound := Nat.mod_lt w.toNat (show 0 < 2 ^ 12 by decide)
    rw [timesSixteen, doubleWord_ofNat (by omega), doubleWord_ofNat (by omega), doubleWord_ofNat (by omega),
      doubleWord_ofNat (by omega)]
    refine BitVec.eq_of_toNat_eq ?_
    rw [BitVec.toNat_shiftLeft, BitVec.toNat_ofNat, Nat.shiftLeft_eq]
    omega
  calc timesSixteen w
      = timesSixteen (BitVec.ofNat 16 (w.toNat % 2 ^ 12) ^^^ BitVec.ofNat 16 ((w >>> 12).toNat * 2 ^ 12)) :=
        congrArg timesSixteen parts
    _ = timesSixteen (BitVec.ofNat 16 (w.toNat % 2 ^ 12)) ^^^
          timesSixteen (BitVec.ofNat 16 ((w >>> 12).toNat * 2 ^ 12)) := by
        rw [timesSixteen, doubleWord_xor, doubleWord_xor, doubleWord_xor, doubleWord_xor]
        rfl
    _ = w <<< 4 ^^^ productOf 0x100b (w >>> 12).toNat := by rw [low, high _ nibble]

/-- The bytes of sixteen times a word. What is reduced has the nibble that leaves the word in its high byte. -/
theorem timesSixteen_bytes (high low : BitVec 8) :
    (timesSixteen (high ++ low)).extractLsb' 0 8 = low <<< 4 ^^^ reduction (high >>> 4).toNat ∧
      (timesSixteen (high ++ low)).extractLsb' 8 8 = (high ^^^ high >>> 4) <<< 4 ||| low >>> 4 := by
  have leaves : (high ++ low) >>> 12 = (high >>> 4).setWidth 16 := by
    refine BitVec.eq_of_getLsbD_eq fun bit below => ?_
    rw [BitVec.getLsbD_ushiftRight, BitVec.getLsbD_append, if_neg (by omega), BitVec.getLsbD_setWidth,
      BitVec.getLsbD_ushiftRight, decide_eq_true below, Bool.true_and]
    congr 1
    omega
  have number : ((high ++ low) >>> 12).toNat = (high >>> 4).toNat := by
    have bound := (high >>> 4).isLt
    rw [leaves, BitVec.toNat_setWidth]
    omega
  have nibble : (high >>> 4).toNat < 16 := by
    rw [BitVec.toNat_ushiftRight, Nat.shiftRight_eq_div_pow]
    have bound := high.isLt
    omega
  have carried : (productOf 0x100b (high >>> 4).toNat).extractLsb' 8 8 = (high >>> 4) <<< 4 := by
    have all : ∀ nibble < 16, (productOf 0x100b nibble).extractLsb' 8 8 = BitVec.ofNat 8 nibble <<< 4 := by
      decide
    rw [all _ nibble, BitVec.ofNat_toNat, BitVec.setWidth_eq]
  rw [timesSixteen_eq, number]
  constructor
  · refine BitVec.eq_of_getLsbD_eq fun bit below => ?_
    rw [reduction, BitVec.getLsbD_extractLsb', BitVec.getLsbD_xor, BitVec.getLsbD_xor, BitVec.getLsbD_extractLsb',
      BitVec.getLsbD_shiftLeft, BitVec.getLsbD_append, BitVec.getLsbD_shiftLeft]
    simp only [below, Nat.zero_add, decide_true, Bool.true_and, show bit < 16 by omega, show bit - 4 < 8 by omega,
      if_true]
  · have moved : ((high ++ low) <<< 4 ^^^ productOf 0x100b (high >>> 4).toNat).extractLsb' 8 8 =
        ((high ++ low) <<< 4).extractLsb' 8 8 ^^^ (high >>> 4) <<< 4 := by
      rw [← carried]
      exact BitVec.extractLsb'_xor
    rw [moved]
    refine BitVec.eq_of_getLsbD_eq fun bit below => ?_
    rw [BitVec.getLsbD_xor, BitVec.getLsbD_extractLsb', BitVec.getLsbD_shiftLeft, BitVec.getLsbD_append,
      BitVec.getLsbD_or, BitVec.getLsbD_shiftLeft, BitVec.getLsbD_shiftLeft, BitVec.getLsbD_xor,
      BitVec.getLsbD_ushiftRight, BitVec.getLsbD_ushiftRight]
    by_cases first : bit < 4
    · simp [first, below, show 8 + bit < 16 by omega, show 8 + bit - 4 = 4 + bit by omega, show 4 + bit < 8 by omega,
        show 4 ≤ 8 + bit by omega]
    · simp [first, below, show 8 + bit < 16 by omega, show ¬ 8 + bit - 4 < 8 by omega,
        show 8 + bit - 4 - 8 = bit - 4 by omega, show 4 ≤ 8 + bit by omega, BitVec.getLsbD_of_ge low (4 + bit) (by omega)]

/-! ## All tables -/

/-- A byte of a product -/
def lowByte (w : BitVec 16) : BitVec 8 := w.extractLsb' 0 8

def highByte (w : BitVec 16) : BitVec 8 := w.extractLsb' 8 8

theorem bytes_of_word (v : Bytes) (j : ℕ) : lowByte (word v j) = v (2 * j) ∧ highByte (word v j) = v (2 * j + 1) :=
  ⟨extract_low _ _, extract_high _ _⟩

/-- The products of the coefficient by the values of a nibble -/
def nibbleProduct (val : BitVec 16) (nibble value : ℕ) : BitVec 16 := productOf val (value * 16 ^ nibble)

theorem nibbleProduct_succ (val : BitVec 16) {nibble value : ℕ} (third : nibble < 3) (small : value < 16) :
    lowByte (nibbleProduct val (nibble + 1) value) = lowByte (nibbleProduct val nibble value) <<< 4 ^^^
        reduction (highByte (nibbleProduct val nibble value) >>> 4).toNat ∧
      highByte (nibbleProduct val (nibble + 1) value) = (highByte (nibbleProduct val nibble value) ^^^
        highByte (nibbleProduct val nibble value) >>> 4) <<< 4 ||| lowByte (nibbleProduct val nibble value) >>> 4 := by
  have place : value * 16 ^ (nibble + 1) = 16 * (value * 16 ^ nibble) := by ring
  have inside : value * 16 ^ nibble < 2 ^ 12 := by
    interval_cases nibble <;> omega
  have bytes := timesSixteen_bytes (highByte (nibbleProduct val nibble value)) (lowByte (nibbleProduct val nibble value))
  have whole : highByte (nibbleProduct val nibble value) ++ lowByte (nibbleProduct val nibble value) =
      productOf val (value * 16 ^ nibble) := append_extract _
  rw [whole, ← productOf_sixteen inside, ← place] at bytes
  exact bytes

/-- The place in its lane that a byte comes from. -/
def lowHighPlace (i : ℕ) : ℕ := if i < 8 then 2 * i else 2 * (i - 8) + 1

theorem shuffle_lowHigh (v : Bytes) (i : ℕ) :
    shuffle_epi8 v lowHigh i = v (i / 16 * 16 + lowHighPlace (i % 16)) := by
  have inside := Nat.mod_lt i (show 0 < 16 by decide)
  rw [shuffle_epi8, lowHigh]
  generalize i % 16 = place at inside
  interval_cases place <;> rfl

/-- The two tables of a nibble, in every lane -/
def Tables (val : BitVec 16) (nibble : ℕ) (tables : Bytes × Bytes) : Prop :=
  ∀ i < target.MWORD_SIZE, tables.1 i = lowByte (nibbleProduct val nibble (i % 16)) ∧
    tables.2 i = highByte (nibbleProduct val nibble (i % 16))

/-- The bytes of the first sixteen products -/
theorem shuf0_vector_bytes (val : BitVec 16) {i : ℕ} (inside : i < 8) :
    ((target.shuf0_vector val).1 (2 * i) = lowByte (nibbleProduct val 0 i) ∧
        (target.shuf0_vector val).1 (2 * i + 1) = highByte (nibbleProduct val 0 i)) ∧
      (target.shuf0_vector val).2 (2 * i) = lowByte (nibbleProduct val 0 (8 + i)) ∧
        (target.shuf0_vector val).2 (2 * i + 1) = highByte (nibbleProduct val 0 (8 + i)) := by
  obtain ⟨first, second⟩ := target.shuf0_vector_words val inside
  have firstBytes := bytes_of_word (target.shuf0_vector val).1 i
  have secondBytes := bytes_of_word (target.shuf0_vector val).2 i
  rw [nibbleProduct, nibbleProduct, pow_zero, mul_one, mul_one, ← first, ← second]
  exact ⟨⟨firstBytes.1.symm, firstBytes.2.symm⟩, secondBytes.1.symm, secondBytes.2.symm⟩

theorem SRLI4_EPI8_eq (v : Bytes) (i : ℕ) : target.SRLI4_EPI8 v i = v i >>> 4 := by
  rw [SRLI4_EPI8]
  split
  · rfl
  · exact and_srli_epi16 v i

theorem SLLI4_EPI8_eq (v : Bytes) (i : ℕ) : target.SLLI4_EPI8 v i = v i <<< 4 := by
  rw [SLLI4_EPI8]
  split
  · rfl
  · exact slli_epi16_and v i

theorem highHalf (b : BitVec 8) : (b >>> 4).msb = false ∧ (b >>> 4).toNat < 16 := by
  have bound := b.isLt
  have number : (b >>> 4).toNat < 16 := by
    rw [BitVec.toNat_ushiftRight, Nat.shiftRight_eq_div_pow]
    omega
  refine ⟨?_, number⟩
  rw [BitVec.msb_eq_decide]
  exact decide_eq_false (by omega)

/-- What is reduced is added before it is moved, or afterwards. -/
theorem reduced_high (high low : BitVec 8) :
    (high <<< 4 ||| low >>> 4) ^^^ (~~~(0xf : BitVec 8) &&& high) = (high ^^^ high >>> 4) <<< 4 ||| low >>> 4 := by
  refine BitVec.eq_of_getLsbD_eq fun bit below => ?_
  rw [BitVec.getLsbD_xor, BitVec.getLsbD_or, BitVec.getLsbD_or, BitVec.getLsbD_and, BitVec.getLsbD_not,
    BitVec.getLsbD_shiftLeft, BitVec.getLsbD_shiftLeft, BitVec.getLsbD_xor, BitVec.getLsbD_ushiftRight,
    BitVec.getLsbD_ushiftRight, nibble_mask below]
  by_cases first : bit < 4
  · simp [first, below]
  · simp [first, below, BitVec.getLsbD_of_ge low (4 + bit) (by omega), show 4 + (bit - 4) = bit by omega]

section Setup

variable {poly : Bytes} (built : ∀ nibble < 16, poly nibble = reduction nibble)

include built

/-- Sixteen times the products of a nibble, in one register for each byte -/
theorem mul16_vec128_products {lo hi : Bytes} {val : BitVec 16} {nibble i : ℕ} (third : nibble < 3) (inside : i < 16)
    (low : lo i = lowByte (nibbleProduct val nibble i)) (high : hi i = highByte (nibbleProduct val nibble i)) :
    (target.mul16_vec128 poly lo hi).1 i = lowByte (nibbleProduct val (nibble + 1) i) ∧
      (target.mul16_vec128 poly lo hi).2 i = highByte (nibbleProduct val (nibble + 1) i) := by
  obtain ⟨nextLow, nextHigh⟩ := nibbleProduct_succ val third inside
  obtain ⟨pos, small⟩ := highHalf (hi i)
  rw [nextLow, nextHigh, ← low, ← high, mul16_vec128]
  dsimp only
  rw [ByteVectors.xor, ByteVectors.or, shuffle_epi8, SLLI4_EPI8_eq, SLLI4_EPI8_eq, SRLI4_EPI8_eq, SRLI4_EPI8_eq,
    ByteVectors.xor, SRLI4_EPI8_eq, pos, if_neg Bool.false_ne_true, Nat.div_eq_of_lt inside, Nat.zero_mul,
    Nat.zero_add, Nat.mod_eq_of_lt small, built _ small]
  exact ⟨rfl, rfl⟩

/-- Sixteen times the products of a nibble, in the two lanes of one register -/
theorem mul16_vec256_products {src : Bytes} {val : BitVec 16} {nibble i : ℕ} (third : nibble < 3) (inside : i < 16)
    (high : src i = highByte (nibbleProduct val nibble i))
    (low : src (16 + i) = lowByte (nibbleProduct val nibble i)) :
    target.mul16_vec256 poly src i = highByte (nibbleProduct val (nibble + 1) i) ∧
      target.mul16_vec256 poly src (16 + i) = lowByte (nibbleProduct val (nibble + 1) i) := by
  obtain ⟨nextLow, nextHigh⟩ := nibbleProduct_succ val third inside
  obtain ⟨pos, small⟩ := highHalf (src i)
  have lane : (16 + i) / 16 = 1 := by omega
  have first : i / 16 = 0 := Nat.div_eq_of_lt inside
  -- the low halves, moved up, and what the other lane carries
  have moved : ∀ j, (if target.MWORD_SIZE = 64 then
      ternarylogic (extract_top128 (srli_epi16 (andnot (set1_epi8 0xf) src) 4)) (set1_epi8 0xf) (slli_epi16 src 4) 0xF2
    else ByteVectors.or (slli_epi16 (ByteVectors.and (set1_epi8 0xf) src) 4)
      (extract_top128 (srli_epi16 (andnot (set1_epi8 0xf) src) 4))) j =
        src j <<< 4 ||| (if j < 16 then src (j + 16) >>> 4 else 0) := by
    intro j
    have carried : extract_top128 (srli_epi16 (andnot (set1_epi8 0xf) src) 4) j =
        if j < 16 then src (j + 16) >>> 4 else 0 := by
      rw [extract_top128, srli_epi16_andnot]
    split
    case isTrue =>
      rw [ternarylogic, ternary_merge, carried, set1_epi8, slli_epi16_andnot, BitVec.or_comm]
    case isFalse =>
      have commuted : ByteVectors.and (set1_epi8 0xf) src = ByteVectors.and src (set1_epi8 0xf) :=
        funext fun i => BitVec.and_comm _ _
      rw [ByteVectors.or, carried, commuted, slli_epi16_and]
  rw [nextLow, nextHigh, ← low, ← high, mul16_vec256]
  rw [ByteVectors.xor, ByteVectors.xor, moved, moved, inserti128, inserti128, first, lane, if_neg Nat.zero_ne_one,
    if_pos rfl, if_pos inside, if_neg (by omega), Nat.add_sub_cancel_left, shuffle_epi8, srli_epi16_andnot, pos,
    if_neg Bool.false_ne_true, first, Nat.zero_mul, Nat.zero_add, Nat.mod_eq_of_lt small, built _ small,
    Nat.add_comm i 16]
  constructor
  · exact reduced_high _ _
  · exact congrArg (· ^^^ _) BitVec.or_zero

omit built in
/-- Both lanes of a register, with the high bytes first -/
def Packed (val : BitVec 16) (nibble : ℕ) (prod : Bytes) : Prop := ∀ i < 16,
  prod i = highByte (nibbleProduct val nibble i) ∧ prod (16 + i) = lowByte (nibbleProduct val nibble i)

omit built in
theorem broadcast_tables (wide : target.MWORD_SIZE ≥ 32) {val : BitVec 16} {nibble : ℕ} {prod : Bytes}
    (packed : Packed val nibble prod) : target.Tables val nibble (target.BCAST_HI prod, target.BCAST_LO prod) := by
  intro i inside
  have known := target.known
  simp only [List.mem_cons, List.not_mem_nil, or_false] at known
  obtain ⟨high, low⟩ := packed (i % 16) (Nat.mod_lt i (by decide))
  have places : target.BCAST_HI prod i = prod (16 + i % 16) ∧ target.BCAST_LO prod i = prod (i % 16) := by
    rw [BCAST_HI, BCAST_LO]
    by_cases full : target.MWORD_SIZE = 64
    · rw [if_pos full, if_pos full, shuffle_i32x4, shuffle_i32x4, Nat.mul_zero, Nat.zero_add]
      exact ⟨rfl, rfl⟩
    · rw [if_neg full, if_neg full, permute4x64, inserti128]
      have short : i < 32 := by omega
      interval_cases i <;> exact ⟨rfl, rfl⟩
  exact ⟨places.1.trans low, places.2.trans high⟩

omit built in
/-- The registers of the first products -/
def FirstBytes (val : BitVec 16) (pd0 pd1 : Bytes) : Prop := ∀ i < 8,
  (pd0 (2 * i) = lowByte (nibbleProduct val 0 i) ∧ pd0 (2 * i + 1) = highByte (nibbleProduct val 0 i)) ∧
    pd1 (2 * i) = lowByte (nibbleProduct val 0 (8 + i)) ∧ pd1 (2 * i + 1) = highByte (nibbleProduct val 0 (8 + i))

omit built in
theorem packed_first {val : BitVec 16} {pd0 pd1 : Bytes} (bytes : FirstBytes val pd0 pd1) :
    Packed val 0 (permute4x64 (shuffle_epi8 (inserti128 pd0 pd1) lowHigh) [1, 3, 0, 2]) := by
  intro i inside
  rw [permute4x64, permute4x64, shuffle_lowHigh, shuffle_lowHigh]
  by_cases low : i < 8
  · obtain ⟨first, _⟩ := bytes i low
    interval_cases i <;> exact ⟨first.2, first.1⟩
  · obtain ⟨j, rfl⟩ := Nat.exists_eq_add_of_le (Nat.not_lt.mp low)
    have small : j < 8 := by omega
    obtain ⟨_, second⟩ := bytes j small
    interval_cases j <;> exact ⟨second.2, second.1⟩

omit built in
theorem tables_first {val : BitVec 16} {pd0 pd1 : Bytes} (bytes : FirstBytes val pd0 pd1)
    (narrow : target.MWORD_SIZE = 16) : target.Tables val 0
      (unpacklo_epi64 (shuffle_epi8 pd0 lowHigh) (shuffle_epi8 pd1 lowHigh),
        unpackhi_epi64 (shuffle_epi8 pd0 lowHigh) (shuffle_epi8 pd1 lowHigh)) := by
  intro i inside
  rw [narrow] at inside
  dsimp only [unpacklo_epi64, unpackhi_epi64]
  rw [shuffle_lowHigh, shuffle_lowHigh, shuffle_lowHigh, shuffle_lowHigh]
  by_cases low : i < 8
  · obtain ⟨first, _⟩ := bytes i low
    interval_cases i <;> exact first
  · obtain ⟨j, rfl⟩ := Nat.exists_eq_add_of_le (Nat.not_lt.mp low)
    have small : j < 8 := by omega
    obtain ⟨_, second⟩ := bytes j small
    interval_cases j <;> exact second

/-- The tables of all four nibbles -/
theorem gf16_shuffle_setup_vec_tables (val : BitVec 16) :
    let tables := target.gf16_shuffle_setup_vec poly val
    target.Tables val 0 (tables.low0, tables.high0) ∧ target.Tables val 1 (tables.low1, tables.high1) ∧
      target.Tables val 2 (tables.low2, tables.high2) ∧ target.Tables val 3 (tables.low3, tables.high3) := by
  intro tables
  have bytes : FirstBytes val (target.shuf0_vector val).1 (target.shuf0_vector val).2 :=
    fun i inside => target.shuf0_vector_bytes val inside
  unfold tables gf16_shuffle_setup_vec
  generalize target.shuf0_vector val = first at bytes ⊢
  obtain ⟨pd0, pd1⟩ := first
  dsimp only at bytes ⊢
  by_cases wide : target.MWORD_SIZE ≥ 32
  · rw [if_pos wide]
    have next : ∀ nibble < 3, ∀ prod, Packed val nibble prod →
        Packed val (nibble + 1) (target.mul16_vec256 poly prod) :=
      fun nibble third prod packed i inside =>
        target.mul16_vec256_products built third inside (packed i inside).1 (packed i inside).2
    have packed0 := packed_first bytes
    have packed1 := next 0 (by decide) _ packed0
    have packed2 := next 1 (by decide) _ packed1
    have packed3 := next 2 (by decide) _ packed2
    exact ⟨target.broadcast_tables wide packed0, target.broadcast_tables wide packed1,
      target.broadcast_tables wide packed2, target.broadcast_tables wide packed3⟩
  · rw [if_neg wide]
    have narrow : target.MWORD_SIZE = 16 := by
      have known := target.known
      simp only [List.mem_cons, List.not_mem_nil, or_false] at known
      omega
    have next : ∀ nibble < 3, ∀ tables, target.Tables val nibble tables →
        target.Tables val (nibble + 1) (target.mul16_vec128 poly tables.1 tables.2) := by
      intro nibble third tables hold i inside
      obtain ⟨low, high⟩ := hold i inside
      rw [narrow] at inside
      rw [Nat.mod_eq_of_lt inside] at low high ⊢
      exact target.mul16_vec128_products built third inside low high
    have tables0 := target.tables_first bytes narrow
    have tables1 := next 0 (by decide) _ tables0
    have tables2 := next 1 (by decide) _ tables1
    have tables3 := next 2 (by decide) _ tables2
    exact ⟨tables0, tables1, tables2, tables3⟩

end Setup

end ShuffleTarget

end Par3
