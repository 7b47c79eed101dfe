import Par3.ShuffleKernels

/-!
# Words of prepared regions

A prepared block has the high byte of a word in its first register and the low byte in the second one, both at the
place that the shuffles inside of lanes give. Every kernel, the preparation and its inverse are loops whose steps
make a block from blocks, so what they do is told word by word.
-/

namespace Par3

open ByteVectors BinaryField BlockLoops Word

namespace ShuffleTarget

variable (target : ShuffleTarget)

/-! ## Nibbles -/

theorem lowHalf (b : BitVec 8) : (0x0f &&& b).msb = false ∧ (0x0f &&& b).toNat = b.toNat % 16 := by
  have number : (0x0f &&& b).toNat = b.toNat % 16 := by
    rw [BitVec.toNat_and, Nat.and_comm]
    exact Nat.and_two_pow_sub_one_eq_mod _ 4
  refine ⟨?_, number⟩
  rw [BitVec.msb_eq_decide, number]
  exact decide_eq_false (by omega)

theorem lowByte_xor (a b : BitVec 16) : lowByte (a ^^^ b) = lowByte a ^^^ lowByte b := BitVec.extractLsb'_xor

theorem highByte_xor (a b : BitVec 16) : highByte (a ^^^ b) = highByte a ^^^ highByte b := BitVec.extractLsb'_xor

/-- The product of a coefficient by a word -/
def product (val w : BitVec 16) : BitVec 16 := ((⟨val⟩ : Gf16) * ⟨w⟩).bits

/-- A word is put together from its nibbles. -/
theorem nibbles (high low : BitVec 8) : (high ++ low).toNat =
    ((0x0f &&& low).toNat * 16 ^ 0 ^^^ (low >>> 4).toNat * 16 ^ 1) ^^^
      ((0x0f &&& high).toNat * 16 ^ 2 ^^^ (high >>> 4).toNat * 16 ^ 3) := by
  have masked : ∀ b : BitVec 8, ∀ bit, (0x0f &&& b).getLsbD bit = (decide (bit < 4) && b.getLsbD bit) := by
    intro b bit
    by_cases inside : bit < 8
    · rw [BitVec.getLsbD_and]
      exact congrArg (· && _) (nibble_mask inside)
    · rw [BitVec.getLsbD_of_ge _ _ (by omega), BitVec.getLsbD_of_ge _ _ (by omega), Bool.and_false]
  have powers : 16 ^ 0 = 2 ^ 0 ∧ 16 ^ 1 = 2 ^ 4 ∧ 16 ^ 2 = 2 ^ 8 ∧ 16 ^ 3 = 2 ^ 12 := by decide
  refine Nat.eq_of_testBit_eq fun bit => ?_
  have eight : ∀ (b : BitVec 8) bit, b.toNat.testBit bit = b.getLsbD bit := fun _ _ => rfl
  have sixteen : ∀ (w : BitVec 16) bit, w.toNat.testBit bit = w.getLsbD bit := fun _ _ => rfl
  rw [powers.1, powers.2.1, powers.2.2.1, powers.2.2.2, Nat.testBit_xor, Nat.testBit_xor, Nat.testBit_xor,
    Nat.testBit_mul_two_pow, Nat.testBit_mul_two_pow, Nat.testBit_mul_two_pow, Nat.testBit_mul_two_pow]
  rw [eight, eight, eight, eight, masked, masked]
  rw [sixteen, BitVec.getLsbD_append, BitVec.getLsbD_ushiftRight, BitVec.getLsbD_ushiftRight]
  have places : bit < 4 ∨ (4 ≤ bit ∧ bit < 8) ∨ (8 ≤ bit ∧ bit < 12) ∨ 12 ≤ bit := by omega
  rcases places with first | ⟨above, second⟩ | ⟨above, third⟩ | above
  · simp [first, show bit < 8 by omega, show ¬ 4 ≤ bit by omega, show ¬ 8 ≤ bit by omega, show ¬ 12 ≤ bit by omega]
  · simp [second, above, show ¬ bit < 4 by omega, show ¬ 8 ≤ bit by omega, show ¬ 12 ≤ bit by omega]
  · simp [above, show ¬ bit < 8 by omega, show ¬ bit < 4 by omega, show 4 ≤ bit by omega,
      show ¬ 12 ≤ bit by omega, show bit - 8 < 4 by omega]
  · simp [above, show ¬ bit < 8 by omega, show ¬ bit < 4 by omega, show 4 ≤ bit by omega,
      show ¬ bit - 8 < 4 by omega, show 8 ≤ bit by omega, show 4 + (bit - 12) = bit - 8 by omega]

/-- A product is the sum of those by the nibbles. -/
theorem product_nibbles (val : BitVec 16) (high low : BitVec 8) : product val (high ++ low) =
    nibbleProduct val 0 (0x0f &&& low).toNat ^^^ nibbleProduct val 1 (low >>> 4).toNat ^^^
      (nibbleProduct val 2 (0x0f &&& high).toNat ^^^ nibbleProduct val 3 (high >>> 4).toNat) := by
  have whole : product val (high ++ low) = productOf val (high ++ low).toNat := by
    rw [product, productOf, BitVec.ofNat_toNat, BitVec.setWidth_eq]
  rw [whole, nibbles, productOf_xor, productOf_xor, productOf_xor]
  rfl

variable {target} in
theorem lookup {val : BitVec 16} {nibble : ℕ} {low high : Bytes} (tables : target.Tables val nibble (low, high))
    {i : ℕ} (inside : i < target.MWORD_SIZE) {idx : Bytes} (positive : (idx i).msb = false)
    (small : (idx i).toNat < 16) :
    shuffle_epi8 low idx i = lowByte (nibbleProduct val nibble (idx i).toNat) ∧
      shuffle_epi8 high idx i = highByte (nibbleProduct val nibble (idx i).toNat) := by
  have known := target.known
  simp only [List.mem_cons, List.not_mem_nil, or_false] at known
  have lane : (i / 16 * 16 + (idx i).toNat) % 16 = (idx i).toNat := by omega
  have found := tables (i / 16 * 16 + (idx i).toNat) (by omega)
  rw [lane] at found
  rw [shuffle_epi8, shuffle_epi8, positive, if_neg Bool.false_ne_true, if_neg Bool.false_ne_true,
    Nat.mod_eq_of_lt small]
  exact found

/-! ## One round -/

/-- A block of products -/
def productBlock (val : BitVec 16) (source : Bytes) : Bytes := fun i =>
  if i < target.MWORD_SIZE then highByte (product val (source i ++ source (target.MWORD_SIZE + i)))
  else lowByte (product val (source (i - target.MWORD_SIZE) ++ source i))

theorem storePair_eq (mem : Bytes) (dst : ℕ) {first second block : Bytes}
    (high : ∀ i < target.MWORD_SIZE, first i = block i)
    (low : ∀ i < target.MWORD_SIZE, second i = block (target.MWORD_SIZE + i)) :
    target.storePair mem dst first second = storeBlock mem dst (2 * target.MWORD_SIZE) block := by
  rw [storePair, storeBlock_storeBlock, ← Nat.two_mul]
  refine storeBlock_congr mem dst fun i inside => ?_
  by_cases early : i < target.MWORD_SIZE
  · rw [if_pos early, high i early]
  · rw [if_neg early, low _ (by omega), Nat.add_sub_cancel' (Nat.not_lt.mp early)]

/-- The bytes of a product, looked up nibble by nibble -/
theorem product_bytes (val : BitVec 16) (high low : BitVec 8) :
    highByte (product val (high ++ low)) =
        highByte (nibbleProduct val 0 (0x0f &&& low).toNat) ^^^ highByte (nibbleProduct val 1 (low >>> 4).toNat) ^^^
          (highByte (nibbleProduct val 2 (0x0f &&& high).toNat) ^^^
            highByte (nibbleProduct val 3 (high >>> 4).toNat)) ∧
      lowByte (product val (high ++ low)) =
        lowByte (nibbleProduct val 0 (0x0f &&& low).toNat) ^^^ lowByte (nibbleProduct val 1 (low >>> 4).toNat) ^^^
          (lowByte (nibbleProduct val 2 (0x0f &&& high).toNat) ^^^
            lowByte (nibbleProduct val 3 (high >>> 4).toNat)) := by
  rw [product_nibbles, highByte_xor, highByte_xor, highByte_xor, lowByte_xor, lowByte_xor, lowByte_xor]
  exact ⟨rfl, rfl⟩

/-- The tables of a coefficient -/
def TablesOf (val : BitVec 16) (tables : NibbleTables) : Prop :=
  target.Tables val 0 (tables.low0, tables.high0) ∧ target.Tables val 1 (tables.low1, tables.high1) ∧
    target.Tables val 2 (tables.low2, tables.high2) ∧ target.Tables val 3 (tables.low3, tables.high3)

/-- The bytes of a block of products -/
theorem productBlock_at (val : BitVec 16) (mem : Bytes) (src : ℕ) {i : ℕ} (inside : i < target.MWORD_SIZE) :
    target.productBlock val (loadBlock mem src) i =
        highByte (product val (loadBlock mem src i ++ loadBlock mem (src + target.MWORD_SIZE) i)) ∧
      target.productBlock val (loadBlock mem src) (target.MWORD_SIZE + i) =
        lowByte (product val (loadBlock mem src i ++ loadBlock mem (src + target.MWORD_SIZE) i)) := by
  have second : loadBlock mem (src + target.MWORD_SIZE) i = loadBlock mem src (target.MWORD_SIZE + i) := by
    rw [loadBlock, loadBlock, Nat.add_assoc]
  rw [productBlock, productBlock, if_pos inside, if_neg (by omega), Nat.add_sub_cancel_left, second]
  exact ⟨rfl, rfl⟩

/-- What is looked up with the nibbles of the wide registers -/
theorem and_srli_epi16_eq (v : Bytes) : ByteVectors.and (set1_epi8 0x0f) (srli_epi16 v 4) = target.SRLI4_EPI8 v := by
  funext i
  rw [SRLI4_EPI8_eq, ← and_srli_epi16]
  exact BitVec.and_comm _ _

section Rounds

variable {target} {val : BitVec 16} {tables : NibbleTables} (hold : target.TablesOf val tables)

include hold

/-- Everything that is looked up for a byte -/
theorem lookups (ta tb : Bytes) {i : ℕ} (inside : i < target.MWORD_SIZE) :
    (shuffle_epi8 tables.low0 (ByteVectors.and (set1_epi8 0x0f) tb) i ^^^
        shuffle_epi8 tables.low1 (target.SRLI4_EPI8 tb) i ^^^
          (shuffle_epi8 tables.low2 (ByteVectors.and (set1_epi8 0x0f) ta) i ^^^
            shuffle_epi8 tables.low3 (target.SRLI4_EPI8 ta) i) = lowByte (product val (ta i ++ tb i))) ∧
      (shuffle_epi8 tables.high0 (ByteVectors.and (set1_epi8 0x0f) tb) i ^^^
        shuffle_epi8 tables.high1 (target.SRLI4_EPI8 tb) i ^^^
          (shuffle_epi8 tables.high2 (ByteVectors.and (set1_epi8 0x0f) ta) i ^^^
            shuffle_epi8 tables.high3 (target.SRLI4_EPI8 ta) i) = highByte (product val (ta i ++ tb i))) := by
  have masked : ∀ v : Bytes, ByteVectors.and (set1_epi8 0x0f) v i = 0x0f &&& v i := fun _ => rfl
  have lowNibble : ∀ v : Bytes, (ByteVectors.and (set1_epi8 0x0f) v i).msb = false ∧
      (ByteVectors.and (set1_epi8 0x0f) v i).toNat < 16 := by
    intro v
    obtain ⟨positive, number⟩ := lowHalf (v i)
    rw [masked, number]
    exact ⟨positive, Nat.mod_lt _ (by decide)⟩
  have highNibble : ∀ v : Bytes, (target.SRLI4_EPI8 v i).msb = false ∧ (target.SRLI4_EPI8 v i).toNat < 16 := by
    intro v
    rw [SRLI4_EPI8_eq]
    exact highHalf (v i)
  obtain ⟨low0, high0⟩ := lookup hold.1 inside (lowNibble tb).1 (lowNibble tb).2
  obtain ⟨low1, high1⟩ := lookup hold.2.1 inside (highNibble tb).1 (highNibble tb).2
  obtain ⟨low2, high2⟩ := lookup hold.2.2.1 inside (lowNibble ta).1 (lowNibble ta).2
  obtain ⟨low3, high3⟩ := lookup hold.2.2.2 inside (highNibble ta).1 (highNibble ta).2
  obtain ⟨highBytes, lowBytes⟩ := product_bytes val (ta i) (tb i)
  rw [low0, low1, low2, low3, high0, high1, high2, high3, masked, masked, SRLI4_EPI8_eq, SRLI4_EPI8_eq]
  exact ⟨lowBytes.symm, highBytes.symm⟩

theorem gf16_shuffle_muladd_round_eq (mem : Bytes) (_dst _src : ℕ) :
    target.gf16_shuffle_muladd_round tables mem _dst _src = storeBlock mem _dst (2 * target.MWORD_SIZE)
      fun i => loadBlock mem _dst i ^^^ target.productBlock val (loadBlock mem _src) i := by
  have found := fun i (inside : i < target.MWORD_SIZE) =>
    lookups hold (loadBlock mem _src) (loadBlock mem (_src + target.MWORD_SIZE)) inside
  have base : ∀ i, loadBlock mem (_dst + target.MWORD_SIZE) i = loadBlock mem _dst (target.MWORD_SIZE + i) := by
    intro i
    rw [loadBlock, loadBlock, Nat.add_assoc]
  unfold gf16_shuffle_muladd_round
  dsimp only
  by_cases widest : target.MWORD_SIZE = 64
  case' pos =>
    rw [if_pos widest, and_srli_epi16_eq, ternarylogic_xor, ternarylogic_xor, ternarylogic_xor, ternarylogic_xor]
  case' neg => rw [if_neg widest]
  all_goals
    refine target.storePair_eq mem _dst (fun i inside => ?_) fun i inside => ?_
    · rw [(target.productBlock_at val mem _src inside).1, ← (found i inside).2]
      simp only [ByteVectors.xor]
      ac_rfl
    · rw [(target.productBlock_at val mem _src inside).2, ← (found i inside).1, ← base]
      simp only [ByteVectors.xor]
      ac_rfl

theorem gf16_shuffle_mul_round_eq (mem : Bytes) (_dst _src : ℕ) :
    target.gf16_shuffle_mul_round tables mem _dst _src = storeBlock mem _dst (2 * target.MWORD_SIZE)
      (target.productBlock val (loadBlock mem _src)) := by
  have found := fun i (inside : i < target.MWORD_SIZE) =>
    lookups hold (loadBlock mem _src) (loadBlock mem (_src + target.MWORD_SIZE)) inside
  unfold gf16_shuffle_mul_round
  dsimp only
  by_cases widest : target.MWORD_SIZE = 64
  case' pos => rw [if_pos widest, ternarylogic_xor, ternarylogic_xor]
  case' neg => rw [if_neg widest]
  all_goals
    refine target.storePair_eq mem _dst (fun i inside => ?_) fun i inside => ?_
    · rw [(target.productBlock_at val mem _src inside).1, ← (found i inside).2]
      simp only [ByteVectors.xor]
      ac_rfl
    · rw [(target.productBlock_at val mem _src inside).2, ← (found i inside).1]
      simp only [ByteVectors.xor]
      ac_rfl

end Rounds

/-! ## Places of words -/

/-- The place of a word of a block in the registers -/
def place (p : ℕ) : ℕ := p % (target.MWORD_SIZE / 2) / 8 * 16 + p / (target.MWORD_SIZE / 2) * 8 + p % 8

/-- The word of a block at a place of the registers -/
def wordAt (j : ℕ) : ℕ := (if j % 16 < 8 then 0 else target.MWORD_SIZE / 2) + j / 16 * 8 + j % 8

theorem size_cases : target.MWORD_SIZE = 16 ∨ target.MWORD_SIZE = 32 ∨ target.MWORD_SIZE = 64 := by
  have known := target.known
  simp only [List.mem_cons, List.not_mem_nil, or_false] at known
  exact known

theorem place_lt {p : ℕ} (inside : p < target.MWORD_SIZE) : target.place p < target.MWORD_SIZE := by
  rw [place]
  rcases target.size_cases with size | size | size <;> rw [size] at inside ⊢ <;> omega

theorem wordAt_place {p : ℕ} (inside : p < target.MWORD_SIZE) : target.wordAt (target.place p) = p := by
  rw [wordAt, place]
  rcases target.size_cases with size | size | size <;> rw [size] at inside ⊢ <;> split <;> omega

theorem place_injective {p q : ℕ} (first : p < target.MWORD_SIZE) (second : q < target.MWORD_SIZE)
    (same : target.place p = target.place q) : p = q := by
  rw [← target.wordAt_place first, same, target.wordAt_place second]

/-! ## Preparing -/

/-- A block whose words are taken apart -/
def preparedBlock (source : Bytes) : Bytes := fun i =>
  if i < target.MWORD_SIZE then source (2 * target.wordAt i + 1)
  else source (2 * target.wordAt (i - target.MWORD_SIZE))

theorem separate_low (v : Bytes) (i : ℕ) :
    separate_low_high v (i / 16 * 16 + i % 8) = v (i / 16 * 16 + 2 * (i % 8) + 0) := by
  rw [separate_low_high, shuffle_lowHigh, lowHighPlace, if_pos (by omega)]
  congr 1
  omega

theorem separate_high (v : Bytes) (i : ℕ) :
    separate_low_high v (i / 16 * 16 + i % 8 + 8) = v (i / 16 * 16 + 2 * (i % 8) + 1) := by
  rw [separate_low_high, shuffle_lowHigh, lowHighPlace, if_neg (by omega)]
  congr 1
  omega

/-- The bytes of both registers, taken apart and put side by side -/
theorem separated (first second source : Bytes) (low : ∀ i < target.MWORD_SIZE, first i = source i)
    (high : ∀ i < target.MWORD_SIZE, second i = source (target.MWORD_SIZE + i)) (mem : Bytes) (dst : ℕ) :
    target.storePair mem dst (unpackhi_epi64 (separate_low_high first) (separate_low_high second))
        (unpacklo_epi64 (separate_low_high first) (separate_low_high second)) =
      storeBlock mem dst (2 * target.MWORD_SIZE) (target.preparedBlock source) := by
  have bytes : ∀ i < target.MWORD_SIZE, ∀ odd < 2,
      (if i % 16 < 8 then first (i / 16 * 16 + 2 * (i % 8) + odd) else second (i / 16 * 16 + 2 * (i % 8) + odd)) =
        source (2 * target.wordAt i + odd) := by
    intro i inside odd two
    rw [wordAt]
    by_cases left : i % 16 < 8
    · rw [if_pos left, if_pos left, low _ (by rcases target.size_cases with size | size | size <;> omega)]
      congr 1
      omega
    · rw [if_neg left, if_neg left, high _ (by rcases target.size_cases with size | size | size <;> omega)]
      congr 1
      rcases target.size_cases with size | size | size <;> omega
  refine target.storePair_eq mem dst (fun i inside => ?_) fun i inside => ?_
  · rw [preparedBlock, if_pos inside, ← bytes i inside 1 (by decide), unpackhi_epi64, separate_high, separate_high]
  · have even := bytes i inside 0 (by decide)
    rw [Nat.add_zero (2 * target.wordAt i)] at even
    rw [preparedBlock, if_neg (by omega), Nat.add_sub_cancel_left, ← even, unpacklo_epi64, separate_low, separate_low]

theorem gf16_shuffle_prepare_block_eq (mem : Bytes) (dst src : ℕ) : target.gf16_shuffle_prepare_block mem dst src =
    storeBlock mem dst (2 * target.MWORD_SIZE) (target.preparedBlock (loadBlock mem src)) := by
  refine target.separated _ _ (loadBlock mem src) (fun i _ => rfl) (fun i _ => ?_) mem dst
  rw [loadBlock, loadBlock, Nat.add_assoc]

/-- The bit of a length that says whether the first register is full -/
theorem and_size {n : ℕ} (short : n < 2 * target.MWORD_SIZE) :
    n &&& target.MWORD_SIZE ≠ 0 ↔ target.MWORD_SIZE ≤ n := by
  have all : ∀ size ∈ [16, 32, 64], ∀ n < 2 * size, n &&& size ≠ 0 ↔ size ≤ n := by decide
  exact all _ target.known n short

theorem xor_size {n : ℕ} (short : n < 2 * target.MWORD_SIZE) (full : target.MWORD_SIZE ≤ n) :
    n ^^^ target.MWORD_SIZE = n - target.MWORD_SIZE := by
  have all : ∀ size ∈ [16, 32, 64], ∀ n < 2 * size, size ≤ n → n ^^^ size = n - size := by decide
  exact all _ target.known n short full

/-- The bytes of a region, with zeros behind it -/
def sourceByte (mem : Bytes) (src srcLen : ℕ) : Bytes := fun n => if n < srcLen then mem (src + n) else 0

theorem gf16_shuffle_prepare_blocku_eq (mem : Bytes) (dst src : ℕ) {remaining : ℕ}
    (short : remaining < 2 * target.MWORD_SIZE) : target.gf16_shuffle_prepare_blocku mem dst src remaining =
      storeBlock mem dst (2 * target.MWORD_SIZE) (target.preparedBlock (sourceByte mem src remaining)) := by
  have bit := target.and_size short
  have empty : (setzero : Bytes) = separate_low_high setzero := by
    funext i
    rw [separate_low_high, shuffle_lowHigh]
    rfl
  have second : (if remaining ≤ target.MWORD_SIZE then setzero
      else separate_low_high (partial_load mem (src + target.MWORD_SIZE) (remaining - target.MWORD_SIZE))) =
        separate_low_high (if remaining ≤ target.MWORD_SIZE then setzero
          else partial_load mem (src + target.MWORD_SIZE) (remaining - target.MWORD_SIZE)) := by
    split
    · exact empty
    · rfl
  rw [gf16_shuffle_prepare_blocku, second]
  refine target.separated _ _ (sourceByte mem src remaining) (fun i inside => ?_) (fun i inside => ?_) mem dst
  · rw [sourceByte]
    by_cases full : target.MWORD_SIZE ≤ remaining
    · rw [if_pos (bit.mpr full), if_pos (by omega), loadBlock]
    · rw [if_neg (mt bit.mp full), partial_load]
  · rw [sourceByte]
    by_cases first : remaining ≤ target.MWORD_SIZE
    · rw [if_pos first, if_neg (by omega), setzero]
    · rw [if_neg first, partial_load]
      by_cases early : i < remaining - target.MWORD_SIZE
      · rw [if_pos early, if_pos (by omega), Nat.add_assoc]
      · rw [if_neg early, if_neg (by omega)]

/-! ## Finishing -/

/-- A block whose words are put together -/
def finishedBlock (source : Bytes) : Bytes := fun i =>
  if i % 2 = 0 then source (target.MWORD_SIZE + target.place (i / 2)) else source (target.place (i / 2))

/-- The bytes of both registers, put together -/
theorem unpacked (ta tb source : Bytes) (first : ∀ i < target.MWORD_SIZE, ta i = source i)
    (second : ∀ i < target.MWORD_SIZE, tb i = source (target.MWORD_SIZE + i)) {i : ℕ} (inside : i < target.MWORD_SIZE) :
    unpacklo_epi8 tb ta i = target.finishedBlock source i ∧
      unpackhi_epi8 tb ta i = target.finishedBlock source (target.MWORD_SIZE + i) := by
  have low : i / 16 * 16 + i % 16 / 2 = target.place (i / 2) := by
    rw [place]
    rcases target.size_cases with size | size | size <;> rw [size] at inside ⊢ <;> omega
  have high : i / 16 * 16 + i % 16 / 2 + 8 = target.place ((target.MWORD_SIZE + i) / 2) := by
    rw [place]
    rcases target.size_cases with size | size | size <;> rw [size] at inside ⊢ <;> omega
  have lowInside := target.place_lt (show i / 2 < target.MWORD_SIZE by omega)
  have highInside := target.place_lt (show (target.MWORD_SIZE + i) / 2 < target.MWORD_SIZE by omega)
  have parity : (target.MWORD_SIZE + i) % 2 = i % 2 := by
    rcases target.size_cases with size | size | size <;> omega
  rw [unpacklo_epi8, unpackhi_epi8, finishedBlock, finishedBlock, parity, high, low, first _ lowInside,
    first _ highInside, second _ lowInside, second _ highInside]
  exact ⟨rfl, rfl⟩

theorem gf16_shuffle_finish_copy_block_eq (mem : Bytes) (dst src : ℕ) :
    target.gf16_shuffle_finish_copy_block mem dst src =
      storeBlock mem dst (2 * target.MWORD_SIZE) (target.finishedBlock (loadBlock mem src)) := by
  have both := fun i (inside : i < target.MWORD_SIZE) =>
    target.unpacked (loadBlock mem src) (loadBlock mem (src + target.MWORD_SIZE)) (loadBlock mem src) (fun _ _ => rfl)
      (fun i _ => by rw [loadBlock, loadBlock, Nat.add_assoc]) inside
  exact target.storePair_eq mem dst (fun i inside => (both i inside).1) fun i inside => (both i inside).2

/-- Only so many bytes of the last block are written. -/
theorem gf16_shuffle_finish_copy_blocku_eq (mem : Bytes) (dst src : ℕ) {bytes : ℕ}
    (short : bytes < 2 * target.MWORD_SIZE) : target.gf16_shuffle_finish_copy_blocku mem dst src bytes =
      storeBlock mem dst bytes (target.finishedBlock (loadBlock mem src)) := by
  have both := fun i (inside : i < target.MWORD_SIZE) =>
    target.unpacked (loadBlock mem src) (loadBlock mem (src + target.MWORD_SIZE)) (loadBlock mem src) (fun _ _ => rfl)
      (fun i _ => by rw [loadBlock, loadBlock, Nat.add_assoc]) inside
  rw [gf16_shuffle_finish_copy_blocku]
  dsimp only
  by_cases full : target.MWORD_SIZE ≤ bytes
  · rw [if_pos ((target.and_size short).mpr full), target.xor_size short full]
    by_cases more : bytes - target.MWORD_SIZE ≠ 0
    · rw [if_pos more, storeBlock_storeBlock, Nat.add_sub_cancel' full]
      refine storeBlock_congr mem dst fun i inside => ?_
      by_cases early : i < target.MWORD_SIZE
      · rw [if_pos early, (both i early).1]
      · rw [if_neg early, (both _ (by omega)).2, Nat.add_sub_cancel' (Nat.not_lt.mp early)]
    · have exact : bytes = target.MWORD_SIZE := by omega
      rw [if_neg more, exact]
      exact storeBlock_congr mem dst fun i inside => (both i inside).1
  · rw [if_neg (mt (target.and_size short).mp full)]
    exact storeBlock_congr mem dst fun i inside => (both i (by omega)).1

/-- Finishing undoes the preparation of a block. -/
theorem finished_prepared (source : Bytes) {i : ℕ} (inside : i < 2 * target.MWORD_SIZE) :
    target.finishedBlock (target.preparedBlock source) i = source i := by
  have word : i / 2 < target.MWORD_SIZE := by omega
  have placed := target.place_lt word
  have parts := Nat.div_add_mod i 2
  rw [finishedBlock]
  split
  case isTrue even =>
    rw [preparedBlock, if_neg (by omega), Nat.add_sub_cancel_left, target.wordAt_place word]
    congr 1
    omega
  case isFalse odd =>
    rw [preparedBlock, if_pos placed, target.wordAt_place word]
    congr 1
    omega

/-! ## Steps on blocks -/

theorem productBlock_congr (val : BitVec 16) {source other : Bytes}
    (same : ∀ i < 2 * target.MWORD_SIZE, source i = other i) {i : ℕ} (inside : i < 2 * target.MWORD_SIZE) :
    target.productBlock val source i = target.productBlock val other i := by
  rw [productBlock, productBlock]
  split
  · rw [same _ inside, same _ (by omega)]
  · rw [same _ inside, same _ (by omega)]

theorem preparedBlock_congr {source other : Bytes} (same : ∀ i < 2 * target.MWORD_SIZE, source i = other i) {i : ℕ}
    (inside : i < 2 * target.MWORD_SIZE) : target.preparedBlock source i = target.preparedBlock other i := by
  have word : ∀ j < target.MWORD_SIZE, target.wordAt j < target.MWORD_SIZE := by
    intro j small
    rw [wordAt]
    rcases target.size_cases with size | size | size <;> rw [size] at small ⊢ <;> split <;> omega
  rw [preparedBlock, preparedBlock]
  split
  case isTrue first =>
    have bound := word i first
    exact same _ (by omega)
  case isFalse second =>
    have bound := word (i - target.MWORD_SIZE) (by omega)
    exact same _ (by omega)

theorem finishedBlock_congr {source other : Bytes} (same : ∀ i < 2 * target.MWORD_SIZE, source i = other i) {i : ℕ}
    (inside : i < 2 * target.MWORD_SIZE) : target.finishedBlock source i = target.finishedBlock other i := by
  have bound := target.place_lt (show i / 2 < target.MWORD_SIZE by omega)
  rw [finishedBlock, finishedBlock]
  split
  · exact same _ (by omega)
  · exact same _ (by omega)

theorem muladd_makes {val : BitVec 16} {tables : NibbleTables} (hold : target.TablesOf val tables) :
    Makes (target.gf16_shuffle_muladd_round tables) (2 * target.MWORD_SIZE)
      fun before source i => before i ^^^ target.productBlock val source i := by
  refine ⟨gf16_shuffle_muladd_round_eq hold, fun before after source other kept same i inside => ?_⟩
  dsimp only
  rw [kept i inside, target.productBlock_congr val same inside]

theorem mul_makes {val : BitVec 16} {tables : NibbleTables} (hold : target.TablesOf val tables) :
    Makes (target.gf16_shuffle_mul_round tables) (2 * target.MWORD_SIZE)
      fun _ source => target.productBlock val source :=
  ⟨gf16_shuffle_mul_round_eq hold, fun _ _ _ _ _ same _ inside => target.productBlock_congr val same inside⟩

theorem prepare_makes : Makes target.gf16_shuffle_prepare_block (2 * target.MWORD_SIZE)
    fun _ source => target.preparedBlock source :=
  ⟨target.gf16_shuffle_prepare_block_eq, fun _ _ _ _ _ same _ inside => target.preparedBlock_congr same inside⟩

theorem finish_makes : Makes (fun mem dst _ => target.gf16_shuffle_finish_block mem dst) (2 * target.MWORD_SIZE)
    fun before _ => target.finishedBlock before :=
  ⟨fun mem dst _ => target.gf16_shuffle_finish_copy_block_eq mem dst dst,
    fun _ _ _ _ same _ _ inside => target.finishedBlock_congr same inside⟩

/-! ## Words -/

/-- A word of a prepared region -/
def preparedWord (mem : Bytes) (base k : ℕ) : BitVec 16 :=
  mem (base + k / target.MWORD_SIZE * (2 * target.MWORD_SIZE) + target.place (k % target.MWORD_SIZE)) ++
    mem (base + k / target.MWORD_SIZE * (2 * target.MWORD_SIZE) +
      (target.MWORD_SIZE + target.place (k % target.MWORD_SIZE)))

/-- A word of a region, with the low byte first -/
def plainWord (mem : Bytes) (base k : ℕ) : BitVec 16 := mem (base + (2 * k + 1)) ++ mem (base + 2 * k)

theorem size_pos : 0 < target.MWORD_SIZE := by
  rcases target.size_cases with size | size | size <;> omega

/-- The block of a word and its place there -/
theorem block_of_word {len k : ℕ} (whole : 2 * target.MWORD_SIZE ∣ len) (inside : k < len / 2) :
    k / target.MWORD_SIZE < len / (2 * target.MWORD_SIZE) ∧
      target.place (k % target.MWORD_SIZE) < target.MWORD_SIZE := by
  obtain ⟨blocks, rfl⟩ := whole
  have positive := target.size_pos
  refine ⟨?_, target.place_lt (Nat.mod_lt k positive)⟩
  rw [Nat.mul_assoc, Nat.mul_div_cancel_left _ (by decide : 0 < 2)] at inside
  rw [Nat.mul_div_cancel_left _ (by omega)]
  exact Nat.div_lt_of_lt_mul inside

/-- The products of the words of a block -/
theorem productBlock_word (val : BitVec 16) (mem : Bytes) (src k : ℕ) :
    target.productBlock val (loadBlock mem (src + k / target.MWORD_SIZE * (2 * target.MWORD_SIZE)))
        (target.place (k % target.MWORD_SIZE)) = highByte (product val (target.preparedWord mem src k)) ∧
      target.productBlock val (loadBlock mem (src + k / target.MWORD_SIZE * (2 * target.MWORD_SIZE)))
        (target.MWORD_SIZE + target.place (k % target.MWORD_SIZE)) =
          lowByte (product val (target.preparedWord mem src k)) := by
  have inside := target.place_lt (Nat.mod_lt k target.size_pos)
  rw [productBlock, productBlock, if_pos inside, if_neg (by omega), Nat.add_sub_cancel_left, preparedWord]
  exact ⟨rfl, rfl⟩

section Kernels

variable {scratch : Bytes} (built : ∀ nibble < 16, scratch nibble = reduction nibble) (mem : Bytes) {dst src len : ℕ}
  (val : BitVec 16) (whole : 2 * target.MWORD_SIZE ∣ len) (apart : Apart dst src len)

include built whole apart

theorem gf16_shuffle_muladd_word {k : ℕ} (inside : k < len / 2) :
    target.preparedWord (target.gf16_shuffle_muladd scratch mem dst src len val) dst k =
      target.preparedWord mem dst k ^^^ product val (target.preparedWord mem src k) := by
  obtain ⟨room, placed⟩ := target.block_of_word whole inside
  have makes := target.muladd_makes (target.gf16_shuffle_setup_vec_tables built val)
  obtain ⟨high, low⟩ := target.productBlock_word val mem src k
  generalize product val (target.preparedWord mem src k) = word at high low ⊢
  have parts : highByte word ++ lowByte word = word := append_extract word
  rw [preparedWord, gf16_shuffle_muladd, overBlocks_at makes apart mem room (by omega),
    overBlocks_at makes apart mem room (by omega), high, low, ← BitVec.xor_append, parts]
  rfl

theorem gf16_shuffle_mul_word {k : ℕ} (inside : k < len / 2) :
    target.preparedWord (target.gf16_shuffle_mul scratch mem dst src len val) dst k =
      product val (target.preparedWord mem src k) := by
  obtain ⟨room, placed⟩ := target.block_of_word whole inside
  have makes := target.mul_makes (target.gf16_shuffle_setup_vec_tables built val)
  obtain ⟨high, low⟩ := target.productBlock_word val mem src k
  rw [preparedWord, gf16_shuffle_mul, overBlocks_at makes apart mem room (by omega),
    overBlocks_at makes apart mem room (by omega), high, low]
  exact append_extract _

end Kernels

theorem gf16_shuffle_finish_word (mem : Bytes) {dst len k : ℕ} (whole : 2 * target.MWORD_SIZE ∣ len)
    (inside : k < len / 2) :
    plainWord (target.gf16_shuffle_finish mem dst len) dst k = target.preparedWord mem dst k := by
  obtain ⟨room, placed⟩ := target.block_of_word whole inside
  have small := Nat.mod_lt k target.size_pos
  have word := Nat.div_add_mod k target.MWORD_SIZE
  have first : dst + 2 * k =
      dst + k / target.MWORD_SIZE * (2 * target.MWORD_SIZE) + 2 * (k % target.MWORD_SIZE) := by
    nlinarith
  have second : dst + (2 * k + 1) =
      dst + k / target.MWORD_SIZE * (2 * target.MWORD_SIZE) + (2 * (k % target.MWORD_SIZE) + 1) := by
    omega
  have apart : Apart dst dst len := .inl rfl
  rw [plainWord, first, second, gf16_shuffle_finish, overBlocks_at target.finish_makes apart mem room (by omega),
    overBlocks_at target.finish_makes apart mem room (by omega), finishedBlock, finishedBlock, if_neg (by omega),
    if_pos (by omega), preparedWord]
  have half : (2 * (k % target.MWORD_SIZE) + 1) / 2 = k % target.MWORD_SIZE ∧
      2 * (k % target.MWORD_SIZE) / 2 = k % target.MWORD_SIZE := by omega
  rw [half.1, half.2]
  rfl

/-! ## Whole regions -/

/-- The length of the prepared region -/
def paddedLength (srcLen : ℕ) : ℕ :=
  (srcLen + (2 * target.MWORD_SIZE - 1)) / (2 * target.MWORD_SIZE) * (2 * target.MWORD_SIZE)

theorem paddedLength_eq (srcLen : ℕ) : target.paddedLength srcLen =
    srcLen / (2 * target.MWORD_SIZE) * (2 * target.MWORD_SIZE) +
      if srcLen % (2 * target.MWORD_SIZE) = 0 then 0 else 2 * target.MWORD_SIZE := by
  have positive := target.size_pos
  rw [paddedLength]
  generalize size : 2 * target.MWORD_SIZE = width
  have parts := Nat.div_add_mod' srcLen width
  have less := Nat.mod_lt srcLen (show 0 < width by omega)
  generalize srcLen / width = full at parts ⊢
  generalize srcLen % width = remaining at parts less ⊢
  by_cases none : remaining = 0
  · rw [if_pos none, Nat.add_zero]
    congr 1
    exact Nat.div_eq_of_lt_le (by omega) (by rw [Nat.succ_mul]; omega)
  · rw [if_neg none, ← Nat.succ_mul]
    congr 1
    refine Nat.div_eq_of_lt_le ?_ ?_
    · rw [Nat.succ_mul]
      omega
    · rw [Nat.succ_mul, Nat.succ_mul]
      omega

theorem paddedLength_dvd (srcLen : ℕ) : 2 * target.MWORD_SIZE ∣ target.paddedLength srcLen := Nat.dvd_mul_left ..

/-- A block of the prepared region begins inside of the source. -/
theorem block_begins {srcLen block : ℕ} (inside : block * (2 * target.MWORD_SIZE) < target.paddedLength srcLen) :
    block * (2 * target.MWORD_SIZE) < srcLen := by
  have positive := target.size_pos
  have length := target.paddedLength_eq srcLen
  have parts := Nat.div_add_mod' srcLen (2 * target.MWORD_SIZE)
  by_cases whole : srcLen % (2 * target.MWORD_SIZE) = 0
  · rw [if_pos whole] at length
    omega
  · rw [if_neg whole, ← Nat.succ_mul] at length
    rw [length] at inside
    have atMost := Nat.lt_succ_iff.mp (Nat.lt_of_mul_lt_mul_right inside)
    have bound := Nat.mul_le_mul_right (2 * target.MWORD_SIZE) atMost
    omega

section Prepare

variable (mem : Bytes) {dst src srcLen : ℕ}
  (apart : dst = src ∨ dst + target.paddedLength srcLen ≤ src ∨ src + srcLen ≤ dst)

include apart

/-- What is prepared: the bytes of the source, and zeros up to the end of the last block. -/
theorem gf16_shuffle_prepare_at {block i : ℕ} (room : block * (2 * target.MWORD_SIZE) < srcLen)
    (inside : i < 2 * target.MWORD_SIZE) :
    target.gf16_shuffle_prepare mem dst src srcLen (dst + block * (2 * target.MWORD_SIZE) + i) =
      target.preparedBlock (fun i => sourceByte mem src srcLen (block * (2 * target.MWORD_SIZE) + i)) i := by
  have positive := target.size_pos
  have length := target.paddedLength_eq srcLen
  have parts := Nat.div_add_mod' srcLen (2 * target.MWORD_SIZE)
  have less := Nat.mod_lt srcLen (show 0 < 2 * target.MWORD_SIZE by omega)
  have rest : srcLen - srcLen % (2 * target.MWORD_SIZE) =
      srcLen / (2 * target.MWORD_SIZE) * (2 * target.MWORD_SIZE) := by omega
  have blocks : srcLen / (2 * target.MWORD_SIZE) * (2 * target.MWORD_SIZE) / (2 * target.MWORD_SIZE) =
      srcLen / (2 * target.MWORD_SIZE) := Nat.mul_div_cancel _ (by omega)
  rw [gf16_shuffle_prepare, rest]
  generalize srcLen / (2 * target.MWORD_SIZE) = full at *
  have loopApart : Apart dst src (full * (2 * target.MWORD_SIZE)) := by
    obtain same | before | behind := apart
    · exact .inl same
    · exact .inr (.inl (by omega))
    · exact .inr (.inr (by omega))
  have next : ∀ {first last : ℕ}, first < last →
      first * (2 * target.MWORD_SIZE) + 2 * target.MWORD_SIZE ≤ last * (2 * target.MWORD_SIZE) := by
    intro first last less
    rw [← Nat.succ_mul]
    exact Nat.mul_le_mul_right _ less
  have early : ∀ block < full, ∀ i < 2 * target.MWORD_SIZE,
      overBlocks target.gf16_shuffle_prepare_block (2 * target.MWORD_SIZE) mem dst src
        (full * (2 * target.MWORD_SIZE)) (dst + block * (2 * target.MWORD_SIZE) + i) =
      target.preparedBlock (fun i => sourceByte mem src srcLen (block * (2 * target.MWORD_SIZE) + i)) i := by
    intro block before i inside
    rw [overBlocks_at target.prepare_makes loopApart mem (by rw [blocks]; exact before) inside]
    refine target.preparedBlock_congr (fun j small => ?_) inside
    have bound := next before
    rw [loadBlock, sourceByte, if_pos (by omega), Nat.add_assoc]
  have kept : ∀ address, address < dst ∨ dst + full * (2 * target.MWORD_SIZE) ≤ address →
      overBlocks target.gf16_shuffle_prepare_block (2 * target.MWORD_SIZE) mem dst src
        (full * (2 * target.MWORD_SIZE)) address = mem address :=
    fun address outside => overBlocks_other target.prepare_makes loopApart mem outside
  generalize overBlocks target.gf16_shuffle_prepare_block (2 * target.MWORD_SIZE) mem dst src
    (full * (2 * target.MWORD_SIZE)) = loop at early kept ⊢
  by_cases whole : srcLen % (2 * target.MWORD_SIZE) = 0
  · rw [if_neg (not_not_intro whole)]
    refine early block ?_ i inside
    exact Nat.lt_of_mul_lt_mul_right (show block * (2 * target.MWORD_SIZE) < full * (2 * target.MWORD_SIZE) by omega)
  · rw [if_pos whole, target.gf16_shuffle_prepare_blocku_eq _ _ _ less]
    rw [if_neg whole] at length
    have atMost : block < full + 1 := by
      by_contra beyond
      have bound := next (show full < block by omega)
      omega
    obtain before | rfl := Nat.lt_succ_iff_lt_or_eq.mp atMost
    · have bound := next before
      rw [storeBlock_other _ _ (by omega)]
      exact early block before i inside
    · rw [storeBlock_at _ _ inside]
      refine target.preparedBlock_congr (fun j small => ?_) inside
      rw [sourceByte, sourceByte]
      by_cases there : j < srcLen % (2 * target.MWORD_SIZE)
      · rw [if_pos there, if_pos (by omega), kept _ (by omega), Nat.add_assoc]
      · rw [if_neg there, if_neg (by omega)]

/-- Every word of the source, and zeros up to the end of the last block -/
theorem gf16_shuffle_prepare_word {k : ℕ} (inside : k < target.paddedLength srcLen / 2) :
    target.preparedWord (target.gf16_shuffle_prepare mem dst src srcLen) dst k =
      sourceByte mem src srcLen (2 * k + 1) ++ sourceByte mem src srcLen (2 * k) := by
  have word := Nat.div_add_mod k target.MWORD_SIZE
  have small := Nat.mod_lt k target.size_pos
  have placed := target.place_lt small
  have even : 2 * k = k / target.MWORD_SIZE * (2 * target.MWORD_SIZE) + 2 * (k % target.MWORD_SIZE) := by
    nlinarith
  have room := target.block_begins (show k / target.MWORD_SIZE * (2 * target.MWORD_SIZE) < target.paddedLength srcLen by
    omega)
  rw [preparedWord, target.gf16_shuffle_prepare_at mem apart room (by omega),
    target.gf16_shuffle_prepare_at mem apart room (by omega), preparedBlock, preparedBlock, if_pos placed,
    if_neg (by omega), Nat.add_sub_cancel_left, target.wordAt_place small]
  have odd : 2 * k + 1 = k / target.MWORD_SIZE * (2 * target.MWORD_SIZE) + (2 * (k % target.MWORD_SIZE) + 1) := by
    omega
  rw [odd, even]


/-- Finishing undoes the preparation of every block. -/
theorem finishedBlock_prepare {block i : ℕ} (room : block * (2 * target.MWORD_SIZE) < srcLen)
    (inside : i < 2 * target.MWORD_SIZE) :
    target.finishedBlock (loadBlock (target.gf16_shuffle_prepare mem dst src srcLen)
        (dst + block * (2 * target.MWORD_SIZE))) i =
      sourceByte mem src srcLen (block * (2 * target.MWORD_SIZE) + i) :=
  (target.finishedBlock_congr (fun _ small => target.gf16_shuffle_prepare_at mem apart room small) inside).trans
    (target.finished_prepared _ inside)

/-- Finishing a region gives back what was prepared, with zeros behind it. -/
theorem gf16_shuffle_finish_prepare {n : ℕ} (inside : n < target.paddedLength srcLen) :
    target.gf16_shuffle_finish (target.gf16_shuffle_prepare mem dst src srcLen) dst (target.paddedLength srcLen)
      (dst + n) = sourceByte mem src srcLen n := by
  have parts := Nat.div_add_mod' n (2 * target.MWORD_SIZE)
  have positive := target.size_pos
  have small := Nat.mod_lt n (show 0 < 2 * target.MWORD_SIZE by omega)
  have room := target.block_begins (show n / (2 * target.MWORD_SIZE) * (2 * target.MWORD_SIZE) <
    target.paddedLength srcLen by omega)
  have block : n / (2 * target.MWORD_SIZE) < target.paddedLength srcLen / (2 * target.MWORD_SIZE) :=
    Nat.div_lt_div_of_lt_of_dvd (target.paddedLength_dvd srcLen) inside
  have self : Apart dst dst (target.paddedLength srcLen) := .inl rfl
  have at_n := overBlocks_at target.finish_makes self (target.gf16_shuffle_prepare mem dst src srcLen) block small
  rw [target.finishedBlock_prepare mem apart room small, Nat.add_assoc, parts] at at_n
  exact at_n

/-- Blocks are copied back, and of the last one only what there was. -/
theorem gf16_shuffle_finish_copy_prepare {block : ℕ} (room : block * (2 * target.MWORD_SIZE) < srcLen) (out : ℕ) :
    (∀ address, target.gf16_shuffle_finish_copy_block
        (target.gf16_shuffle_prepare mem dst src srcLen) out (dst + block * (2 * target.MWORD_SIZE)) address =
      if out ≤ address ∧ address < out + 2 * target.MWORD_SIZE then
        sourceByte mem src srcLen (block * (2 * target.MWORD_SIZE) + (address - out))
      else target.gf16_shuffle_prepare mem dst src srcLen address) ∧
    ∀ bytes < 2 * target.MWORD_SIZE, ∀ address, target.gf16_shuffle_finish_copy_blocku
        (target.gf16_shuffle_prepare mem dst src srcLen) out (dst + block * (2 * target.MWORD_SIZE)) bytes address =
      if out ≤ address ∧ address < out + bytes then
        sourceByte mem src srcLen (block * (2 * target.MWORD_SIZE) + (address - out))
      else target.gf16_shuffle_prepare mem dst src srcLen address := by
  constructor
  · intro address
    rw [gf16_shuffle_finish_copy_block_eq, storeBlock]
    by_cases there : out ≤ address ∧ address < out + 2 * target.MWORD_SIZE
    · rw [if_pos there, if_pos there, target.finishedBlock_prepare mem apart room (by omega)]
    · rw [if_neg there, if_neg there]
  · intro bytes short address
    rw [target.gf16_shuffle_finish_copy_blocku_eq _ _ _ short, storeBlock]
    by_cases there : out ≤ address ∧ address < out + bytes
    · rw [if_pos there, if_pos there, target.finishedBlock_prepare mem apart room (by omega)]
    · rw [if_neg there, if_neg there]

end Prepare

/-! ## Single words -/

/-- The place of a word, computed from the bits of its index -/
theorem replace_place (index : ℕ) :
    (if target.MWORD_SIZE > 16 then
      (index % target.MWORD_SIZE &&& 7) |||
        ((index % target.MWORD_SIZE &&& (target.MWORD_SIZE / 2 - 8)) <<< 1) |||
          (if index % target.MWORD_SIZE &&& (target.MWORD_SIZE / 2) ≠ 0 then 8 else 0)
    else index % target.MWORD_SIZE) = target.place (index % target.MWORD_SIZE) := by
  have small := Nat.mod_lt index target.size_pos
  have all : ∀ size ∈ [16, 32, 64], ∀ pos < size,
      (if size > 16 then (pos &&& 7) ||| ((pos &&& (size / 2 - 8)) <<< 1) ||| (if pos &&& (size / 2) ≠ 0 then 8 else 0)
        else pos) = pos % (size / 2) / 8 * 16 + pos / (size / 2) * 8 + pos % 8 := by decide
  exact all _ target.known _ small

theorem parts_unique {width a b x y : ℕ} (first : x < width) (second : y < width)
    (same : a * width + x = b * width + y) : a = b ∧ x = y := by
  have quotient : ∀ a x, x < width → (a * width + x) / width = a := by
    intro a x small
    rw [Nat.mul_comm, Nat.mul_add_div (by omega), Nat.div_eq_of_lt small, Nat.add_zero]
  have equal : a = b := by rw [← quotient a x first, same, quotient b y second]
  subst equal
  exact ⟨rfl, Nat.add_left_cancel same⟩

/-- The word that was there is returned, and it is the only one that is replaced. -/
theorem gf16_shuffleX_replace_word_eq (mem : Bytes) (data index : ℕ) (newValue : BitVec 16) :
    (gf16_shuffleX_replace_word mem data index newValue target.MWORD_SIZE).1 = target.preparedWord mem data index ∧
      (∀ k, target.preparedWord (gf16_shuffleX_replace_word mem data index newValue target.MWORD_SIZE).2 data k =
        if k = index then newValue else target.preparedWord mem data k) ∧
      ∀ address < data,
        (gf16_shuffleX_replace_word mem data index newValue target.MWORD_SIZE).2 address = mem address := by
  have positive := target.size_pos
  have base : data + (index - index % target.MWORD_SIZE) * 2 =
      data + index / target.MWORD_SIZE * (2 * target.MWORD_SIZE) := by
    have parts := Nat.div_add_mod' index target.MWORD_SIZE
    have whole : index - index % target.MWORD_SIZE = index / target.MWORD_SIZE * target.MWORD_SIZE := by omega
    rw [whole, Nat.mul_assoc, Nat.mul_comm target.MWORD_SIZE]
  have placed : ∀ k, target.place (k % target.MWORD_SIZE) < target.MWORD_SIZE :=
    fun k => target.place_lt (Nat.mod_lt k positive)
  have order : ∀ k, data + k / target.MWORD_SIZE * (2 * target.MWORD_SIZE) + target.place (k % target.MWORD_SIZE) +
      target.MWORD_SIZE = data + k / target.MWORD_SIZE * (2 * target.MWORD_SIZE) +
        (target.MWORD_SIZE + target.place (k % target.MWORD_SIZE)) := by
    intro k
    rw [Nat.add_assoc, Nat.add_comm (target.place _)]
  -- one byte at each place
  have unique : ∀ k x, x < 2 * target.MWORD_SIZE → ∀ j y, y < 2 * target.MWORD_SIZE →
      data + k / target.MWORD_SIZE * (2 * target.MWORD_SIZE) + x =
        data + j / target.MWORD_SIZE * (2 * target.MWORD_SIZE) + y →
      k / target.MWORD_SIZE = j / target.MWORD_SIZE ∧ x = y := by
    intro k x small j y short same
    exact parts_unique small short (by omega)
  have sameWord : ∀ k j, k / target.MWORD_SIZE = j / target.MWORD_SIZE →
      target.place (k % target.MWORD_SIZE) = target.place (j % target.MWORD_SIZE) → k = j := by
    intro k j block place
    have rest := target.place_injective (Nat.mod_lt k positive) (Nat.mod_lt j positive) place
    rw [← Nat.div_add_mod k target.MWORD_SIZE, block, rest, Nat.div_add_mod]
  rw [gf16_shuffleX_replace_word]
  dsimp only
  rw [target.replace_place, base, order]
  refine ⟨rfl, fun k => ?_, fun address before => ?_⟩
  case refine_2 => rw [Function.update_of_ne (by omega), Function.update_of_ne (by omega)]
  have first := placed k
  have second := placed index
  rw [preparedWord, preparedWord]
  by_cases same : k = index
  · subst same
    rw [if_pos rfl, Function.update_self, Function.update_of_ne (by omega), Function.update_self]
    exact append_extract newValue
  · have high : data + k / target.MWORD_SIZE * (2 * target.MWORD_SIZE) + target.place (k % target.MWORD_SIZE) ≠
        data + index / target.MWORD_SIZE * (2 * target.MWORD_SIZE) + target.place (index % target.MWORD_SIZE) := by
      intro equal
      obtain ⟨block, place⟩ := unique k _ (by omega) index _ (by omega) equal
      exact same (sameWord k index block place)
    have low : data + k / target.MWORD_SIZE * (2 * target.MWORD_SIZE) +
          (target.MWORD_SIZE + target.place (k % target.MWORD_SIZE)) ≠
        data + index / target.MWORD_SIZE * (2 * target.MWORD_SIZE) +
          (target.MWORD_SIZE + target.place (index % target.MWORD_SIZE)) := by
      intro equal
      obtain ⟨block, place⟩ := unique k _ (by omega) index _ (by omega) equal
      exact same (sameWord k index block (by omega))
    have highLow : data + k / target.MWORD_SIZE * (2 * target.MWORD_SIZE) + target.place (k % target.MWORD_SIZE) ≠
        data + index / target.MWORD_SIZE * (2 * target.MWORD_SIZE) +
          (target.MWORD_SIZE + target.place (index % target.MWORD_SIZE)) := by
      intro equal
      obtain ⟨_, place⟩ := unique k _ (by omega) index _ (by omega) equal
      omega
    have lowHigh : data + k / target.MWORD_SIZE * (2 * target.MWORD_SIZE) +
          (target.MWORD_SIZE + target.place (k % target.MWORD_SIZE)) ≠
        data + index / target.MWORD_SIZE * (2 * target.MWORD_SIZE) + target.place (index % target.MWORD_SIZE) := by
      intro equal
      obtain ⟨_, place⟩ := unique k _ (by omega) index _ (by omega) equal
      omega
    rw [if_neg same, Function.update_of_ne high, Function.update_of_ne highLow, Function.update_of_ne lowHigh,
      Function.update_of_ne low]

/-! ## The method -/

theorem paddedLength_whole {len : ℕ} (whole : 2 * target.MWORD_SIZE ∣ len) : target.paddedLength len = len := by
  rw [paddedLength_eq, if_pos (Nat.mod_eq_zero_of_dvd whole), Nat.add_zero, Nat.div_mul_cancel whole]

/-- Nothing else is changed by the preparation of a region of whole blocks. -/
theorem gf16_shuffle_prepare_other (mem : Bytes) {dst src len address : ℕ} (whole : 2 * target.MWORD_SIZE ∣ len)
    (apart : Apart dst src len) (outside : address < dst ∨ dst + len ≤ address) :
    target.gf16_shuffle_prepare mem dst src len address = mem address := by
  rw [gf16_shuffle_prepare, Nat.mod_eq_zero_of_dvd whole, if_neg (not_not_intro rfl), Nat.sub_zero]
  exact overBlocks_other target.prepare_makes apart mem outside

theorem preparedWord_congr {mem other : Bytes} {base len k : ℕ} (whole : 2 * target.MWORD_SIZE ∣ len)
    (same : ∀ address, base ≤ address → address < base + len → mem address = other address) (inside : k < len / 2) :
    target.preparedWord mem base k = target.preparedWord other base k := by
  obtain ⟨room, placed⟩ := target.block_of_word whole inside
  have bound := Nat.mul_le_mul_right (2 * target.MWORD_SIZE) (Nat.succ_le_of_lt room)
  rw [Nat.div_mul_cancel whole, Nat.succ_mul] at bound
  rw [preparedWord, preparedWord, same _ (by omega) (by omega), same _ (by omega) (by omega)]

/-- For every coefficient and every length of whole blocks, what is prepared, multiplied and finished are the
products word by word, and they are added where the kernel adds. Finishing gives back what was prepared, of a last
block only what there was. A word is replaced alone. -/
theorem shuffle_method : ∃ scratch, gf16_shuffle_init_x86 0x1100b = some scratch ∧
    (∀ val mem dst src len, 2 * target.MWORD_SIZE ∣ len → Apart dst src len → ∀ k < len / 2,
      target.preparedWord (target.gf16_shuffle_mul scratch mem dst src len val) dst k =
          product val (target.preparedWord mem src k) ∧
        target.preparedWord (target.gf16_shuffle_muladd scratch mem dst src len val) dst k =
          target.preparedWord mem dst k ^^^ product val (target.preparedWord mem src k)) ∧
    (∀ val mem dst buf src len, 2 * target.MWORD_SIZE ∣ len → Apart buf src len →
      dst + len ≤ buf ∨ buf + len ≤ dst → ∀ k < len / 2,
        plainWord (target.gf16_shuffle_finish (target.gf16_shuffle_mul scratch
            (target.gf16_shuffle_prepare mem buf src len) dst buf len val) dst len) dst k =
          product val (plainWord mem src k) ∧
        plainWord (target.gf16_shuffle_finish (target.gf16_shuffle_muladd scratch
            (target.gf16_shuffle_prepare mem buf src len) dst buf len val) dst len) dst k =
          target.preparedWord mem dst k ^^^ product val (plainWord mem src k)) ∧
    (∀ mem dst src srcLen, dst = src ∨ dst + target.paddedLength srcLen ≤ src ∨ src + srcLen ≤ dst →
      (∀ n < target.paddedLength srcLen, target.gf16_shuffle_finish (target.gf16_shuffle_prepare mem dst src srcLen)
        dst (target.paddedLength srcLen) (dst + n) = sourceByte mem src srcLen n) ∧
      ∀ block, block * (2 * target.MWORD_SIZE) < srcLen → ∀ out,
        (∀ address, target.gf16_shuffle_finish_copy_block
            (target.gf16_shuffle_prepare mem dst src srcLen) out (dst + block * (2 * target.MWORD_SIZE)) address =
          if out ≤ address ∧ address < out + 2 * target.MWORD_SIZE then
            sourceByte mem src srcLen (block * (2 * target.MWORD_SIZE) + (address - out))
          else target.gf16_shuffle_prepare mem dst src srcLen address) ∧
        ∀ bytes < 2 * target.MWORD_SIZE, ∀ address, target.gf16_shuffle_finish_copy_blocku
            (target.gf16_shuffle_prepare mem dst src srcLen) out (dst + block * (2 * target.MWORD_SIZE)) bytes
            address =
          if out ≤ address ∧ address < out + bytes then
            sourceByte mem src srcLen (block * (2 * target.MWORD_SIZE) + (address - out))
          else target.gf16_shuffle_prepare mem dst src srcLen address) ∧
    ∀ mem data index newValue,
      (gf16_shuffleX_replace_word mem data index newValue target.MWORD_SIZE).1 =
          target.preparedWord mem data index ∧
        (∀ k, target.preparedWord (gf16_shuffleX_replace_word mem data index newValue target.MWORD_SIZE).2 data k =
          if k = index then newValue else target.preparedWord mem data k) ∧
        ∀ address < data,
          (gf16_shuffleX_replace_word mem data index newValue target.MWORD_SIZE).2 address = mem address := by
  obtain ⟨scratch, init, built⟩ := gf16_shuffle_init_x86_table
  refine ⟨scratch, init, ?_, ?_, ?_, target.gf16_shuffleX_replace_word_eq⟩
  · intro val mem dst src len whole apart k inside
    exact ⟨target.gf16_shuffle_mul_word built mem val whole apart inside,
      target.gf16_shuffle_muladd_word built mem val whole apart inside⟩
  · intro val mem dst buf src len whole fresh apart k inside
    have padded := target.paddedLength_whole whole
    have regions : buf = src ∨ buf + target.paddedLength len ≤ src ∨ src + len ≤ buf := by
      rw [padded]
      exact fresh
    have word := target.gf16_shuffle_prepare_word mem regions (show k < target.paddedLength len / 2 by rwa [padded])
    rw [sourceByte, sourceByte, if_pos (by omega), if_pos (by omega)] at word
    have kept : target.preparedWord (target.gf16_shuffle_prepare mem buf src len) dst k =
        target.preparedWord mem dst k :=
      target.preparedWord_congr whole (fun address low high =>
        target.gf16_shuffle_prepare_other mem whole fresh (by omega)) inside
    have separate : Apart dst buf len := .inr apart
    rw [target.gf16_shuffle_finish_word _ whole inside, target.gf16_shuffle_finish_word _ whole inside,
      target.gf16_shuffle_mul_word built _ val whole separate inside,
      target.gf16_shuffle_muladd_word built _ val whole separate inside, word, kept]
    exact ⟨rfl, rfl⟩
  · intro mem dst src srcLen apart
    exact ⟨fun n inside => target.gf16_shuffle_finish_prepare mem apart inside,
      fun block room out => target.gf16_shuffle_finish_copy_prepare mem apart room out⟩

end ShuffleTarget

end Par3
