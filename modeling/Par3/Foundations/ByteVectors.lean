import Mathlib.Data.BitVec

/-!
# Registers of bytes

A register is read byte by byte. Instructions on bytes work at each byte, instructions on wider elements
at the elements that the bytes are part of, and shuffles inside lanes of sixteen bytes. A register that
has fewer lanes than another is the same function, of which fewer bytes are used.
-/

namespace ByteVectors

/-- A register. -/
abbrev Bytes := ℕ → BitVec 8

/-! ## Elements -/

/-- An element of two bytes. -/
def word (v : Bytes) (j : ℕ) : BitVec 16 := v (2 * j + 1) ++ v (2 * j)

/-- The register with the given elements of two bytes. -/
def ofWords (words : ℕ → BitVec 16) : Bytes := fun i => (words (i / 2)).extractLsb' (8 * (i % 2)) 8

/-- The register with the given elements of four bytes. -/
def ofDwords (dwords : ℕ → BitVec 32) : Bytes := fun i => (dwords (i / 4)).extractLsb' (8 * (i % 4)) 8

/-- The low or the high half of a pair. -/
theorem extract_low {w : ℕ} (high low : BitVec w) : (high ++ low).extractLsb' 0 w = low := by
  refine BitVec.eq_of_getLsbD_eq fun bit below => ?_
  rw [BitVec.getLsbD_extractLsb', decide_eq_true below, Bool.true_and, Nat.zero_add,
    BitVec.getLsbD_append, if_pos below]

theorem extract_high {w : ℕ} (high low : BitVec w) : (high ++ low).extractLsb' w w = high := by
  refine BitVec.eq_of_getLsbD_eq fun bit below => ?_
  rw [BitVec.getLsbD_extractLsb', decide_eq_true below, Bool.true_and, BitVec.getLsbD_append,
    if_neg (by omega), Nat.add_sub_cancel_left]

theorem append_extract (w : BitVec 16) : w.extractLsb' 8 8 ++ w.extractLsb' 0 8 = w := by
  refine BitVec.eq_of_getLsbD_eq fun bit below => ?_
  rw [BitVec.getLsbD_append, BitVec.getLsbD_extractLsb', BitVec.getLsbD_extractLsb']
  by_cases low : bit < 8
  · rw [if_pos low, decide_eq_true low, Bool.true_and, Nat.zero_add]
  · rw [if_neg low, decide_eq_true (show bit - 8 < 8 by omega), Bool.true_and,
      Nat.add_sub_cancel' (Nat.not_lt.mp low)]

theorem word_ofWords (words : ℕ → BitVec 16) (j : ℕ) : word (ofWords words) j = words j := by
  have high : (2 * j + 1) / 2 = j ∧ (2 * j + 1) % 2 = 1 := by omega
  have low : 2 * j / 2 = j ∧ 2 * j % 2 = 0 := by omega
  rw [word, ofWords, ofWords, high.1, high.2, low.1, low.2]
  exact append_extract (words j)

theorem word_ofDwords (dwords : ℕ → BitVec 32) (j : ℕ) :
    word (ofDwords dwords) j = (dwords (j / 2)).extractLsb' (16 * (j % 2)) 16 := by
  have high : (2 * j + 1) / 4 = j / 2 ∧ (2 * j + 1) % 4 = 2 * (j % 2) + 1 := by omega
  have low : 2 * j / 4 = j / 2 ∧ 2 * j % 4 = 2 * (j % 2) := by omega
  rw [word, ofDwords, ofDwords, high.1, high.2, low.1, low.2]
  refine BitVec.eq_of_getLsbD_eq fun bit below => ?_
  rw [BitVec.getLsbD_append, BitVec.getLsbD_extractLsb', BitVec.getLsbD_extractLsb',
    BitVec.getLsbD_extractLsb', decide_eq_true below, Bool.true_and]
  by_cases first : bit < 8
  · rw [if_pos first, decide_eq_true first, Bool.true_and]
    congr 1
    omega
  · rw [if_neg first, decide_eq_true (show bit - 8 < 8 by omega), Bool.true_and]
    congr 1
    omega

/-! ## Instructions -/

def setzero : Bytes := fun _ => 0

def set1_epi8 (value : BitVec 8) : Bytes := fun _ => value

def set1_epi16 (value : BitVec 16) : Bytes := ofWords fun _ => value

def set1_epi32 (value : BitVec 32) : Bytes := ofDwords fun _ => value

def cvtsi32 (value : BitVec 32) : Bytes := ofDwords fun dword => if dword = 0 then value else 0

def insert_epi32 (v : Bytes) (value : BitVec 32) (dword : ℕ) : Bytes := fun i =>
  if i / 4 = dword then value.extractLsb' (8 * (i % 4)) 8 else v i

def and (a b : Bytes) : Bytes := fun i => a i &&& b i

def andnot (a b : Bytes) : Bytes := fun i => ~~~a i &&& b i

def or (a b : Bytes) : Bytes := fun i => a i ||| b i

def xor (a b : Bytes) : Bytes := fun i => a i ^^^ b i

/-- Each bit is looked up in the immediate. -/
def ternary (a b c imm : BitVec 8) : BitVec 8 := BitVec.ofNat 8 (Nat.ofBits fun bit : Fin 8 =>
  imm.getLsbD (4 * (a.getLsbD bit).toNat + 2 * (b.getLsbD bit).toNat + (c.getLsbD bit).toNat))

def ternarylogic (a b c : Bytes) (imm : BitVec 8) : Bytes := fun i => ternary (a i) (b i) (c i) imm

def srli_epi16 (v : Bytes) (count : ℕ) : Bytes := ofWords fun j => word v j >>> count

def slli_epi16 (v : Bytes) (count : ℕ) : Bytes := ofWords fun j => word v j <<< count

def add_epi16 (a b : Bytes) : Bytes := ofWords fun j => word a j + word b j

def cmpgt_epi16 (a b : Bytes) : Bytes := ofWords fun j => if (word b j).slt (word a j) then -1 else 0

/-- A byte with its highest bit set clears, any other looks up a byte of its lane. -/
def shuffle_epi8 (v idx : Bytes) : Bytes := fun i =>
  if (idx i).msb then 0 else v (i / 16 * 16 + (idx i).toNat % 16)

def unpacklo_epi8 (a b : Bytes) : Bytes := fun i =>
  if i % 2 = 0 then a (i / 16 * 16 + i % 16 / 2) else b (i / 16 * 16 + i % 16 / 2)

def unpackhi_epi8 (a b : Bytes) : Bytes := fun i =>
  if i % 2 = 0 then a (i / 16 * 16 + i % 16 / 2 + 8) else b (i / 16 * 16 + i % 16 / 2 + 8)

def unpacklo_epi32 (a b : Bytes) : Bytes := fun i =>
  let dword := i % 16 / 4
  if dword % 2 = 0 then a (i / 16 * 16 + dword / 2 * 4 + i % 4) else b (i / 16 * 16 + dword / 2 * 4 + i % 4)

def unpacklo_epi64 (a b : Bytes) : Bytes := fun i =>
  if i % 16 < 8 then a (i / 16 * 16 + i % 8) else b (i / 16 * 16 + i % 8)

def unpackhi_epi64 (a b : Bytes) : Bytes := fun i =>
  if i % 16 < 8 then a (i / 16 * 16 + i % 8 + 8) else b (i / 16 * 16 + i % 8 + 8)

/-- The second lane is replaced. -/
def inserti128 (a b : Bytes) : Bytes := fun i => if i / 16 = 1 then b (i - 16) else a i

/-- The second lane, with zeros behind it. -/
def extract_top128 (v : Bytes) : Bytes := fun i => if i < 16 then v (i + 16) else 0

/-- Elements of eight bytes, with two bits of the immediate for each. -/
def permute4x64 (v : Bytes) (select : List ℕ) : Bytes := fun i => v (8 * select.getD (i / 8) 0 + i % 8)

/-- The same lane everywhere. -/
def shuffle_i32x4 (v : Bytes) (lane : ℕ) : Bytes := fun i => v (16 * lane + i % 16)

/-! ## What they give -/

section Elements

variable (a b v : Bytes)

@[simp] theorem word_setzero (j : ℕ) : word setzero j = 0 := by
  simp only [word, setzero]
  decide

@[simp] theorem word_set1_epi16 (value : BitVec 16) (j : ℕ) : word (set1_epi16 value) j = value :=
  word_ofWords _ j

@[simp] theorem word_set1_epi32 (value : BitVec 32) (j : ℕ) :
    word (set1_epi32 value) j = value.extractLsb' (16 * (j % 2)) 16 := word_ofDwords _ j

@[simp] theorem word_and (j : ℕ) : word (and a b) j = word a j &&& word b j := by
  refine BitVec.eq_of_getLsbD_eq fun bit below => ?_
  rw [word, word, word, BitVec.getLsbD_and, BitVec.getLsbD_append, BitVec.getLsbD_append,
    BitVec.getLsbD_append]
  split
  case isTrue => exact BitVec.getLsbD_and
  case isFalse => exact BitVec.getLsbD_and

@[simp] theorem word_xor (j : ℕ) : word (xor a b) j = word a j ^^^ word b j := by
  refine BitVec.eq_of_getLsbD_eq fun bit below => ?_
  rw [word, word, word, BitVec.getLsbD_xor, BitVec.getLsbD_append, BitVec.getLsbD_append,
    BitVec.getLsbD_append]
  split
  case isTrue => exact BitVec.getLsbD_xor
  case isFalse => exact BitVec.getLsbD_xor

@[simp] theorem word_add_epi16 (j : ℕ) : word (add_epi16 a b) j = word a j + word b j := word_ofWords _ j

@[simp] theorem word_cmpgt_epi16 (j : ℕ) :
    word (cmpgt_epi16 a b) j = if (word b j).slt (word a j) then -1 else 0 := word_ofWords _ j

/-- The bits of a byte, when words are moved down. -/
theorem getLsbD_srli_epi16 (i : ℕ) {bit : ℕ} (below : bit < 8) : (srli_epi16 v 4 i).getLsbD bit =
    if bit < 4 then (v i).getLsbD (bit + 4) else if i % 2 = 0 then (v (i + 1)).getLsbD (bit - 4) else false := by
  have parts := Nat.div_add_mod i 2
  rw [srli_epi16, ofWords, word, BitVec.getLsbD_extractLsb', decide_eq_true below, Bool.true_and,
    BitVec.getLsbD_ushiftRight, BitVec.getLsbD_append]
  obtain even | odd := Nat.mod_two_eq_zero_or_one i
  · rw [even, Nat.add_zero] at parts
    rw [even, parts, Nat.mul_zero, Nat.zero_add, if_pos rfl]
    by_cases low : bit < 4
    · rw [if_pos low, if_pos (by omega), Nat.add_comm]
    · rw [if_neg low, if_neg (by omega)]
      congr 1
      omega
  · rw [odd] at parts
    rw [odd, parts, if_neg (by omega), if_neg Nat.one_ne_zero]
    have place : 4 + (8 * 1 + bit) - 8 = bit + 4 := by omega
    rw [place]
    by_cases low : bit < 4
    · rw [if_pos low]
    · rw [if_neg low, BitVec.getLsbD_of_ge _ _ (by omega)]

/-- The bits of a byte, when words are moved up. -/
theorem getLsbD_slli_epi16 (i : ℕ) {bit : ℕ} (below : bit < 8) : (slli_epi16 v 4 i).getLsbD bit =
    if bit < 4 then (if i % 2 = 0 then false else (v (i - 1)).getLsbD (bit + 4)) else (v i).getLsbD (bit - 4) := by
  have parts := Nat.div_add_mod i 2
  rw [slli_epi16, ofWords, word, BitVec.getLsbD_extractLsb', decide_eq_true below, Bool.true_and,
    BitVec.getLsbD_shiftLeft, BitVec.getLsbD_append]
  obtain even | odd := Nat.mod_two_eq_zero_or_one i
  · rw [even, Nat.add_zero] at parts
    rw [even, parts, Nat.mul_zero, Nat.zero_add, if_pos rfl, decide_eq_true (by omega : bit < 16), Bool.true_and,
      if_pos (by omega)]
    by_cases low : bit < 4
    · rw [if_pos low, decide_eq_true low]
      rfl
    · rw [if_neg low, decide_eq_false low]
      rfl
  · rw [odd] at parts
    have before : 2 * (i / 2) = i - 1 := by omega
    rw [odd, parts, before, decide_eq_true (by omega : 8 * 1 + bit < 16), Bool.true_and,
      decide_eq_false (by omega : ¬ 8 * 1 + bit < 4), Bool.not_false, Bool.true_and, if_neg Nat.one_ne_zero]
    by_cases low : bit < 4
    · rw [if_pos low, if_pos (by omega)]
      congr 1
      omega
    · rw [if_neg low, if_neg (by omega)]
      congr 1
      omega

theorem nibble_mask {bit : ℕ} (below : bit < 8) : (0xf : BitVec 8).getLsbD bit = decide (bit < 4) := by
  revert bit
  decide

/-- The high half of each byte. -/
theorem and_srli_epi16 (i : ℕ) : and (srli_epi16 v 4) (set1_epi8 0xf) i = v i >>> 4 := by
  refine BitVec.eq_of_getLsbD_eq fun bit below => ?_
  rw [and, set1_epi8, BitVec.getLsbD_and, nibble_mask below, getLsbD_srli_epi16 v i below, BitVec.getLsbD_ushiftRight,
    Nat.add_comm]
  by_cases low : bit < 4
  · rw [if_pos low, decide_eq_true low, Bool.and_true]
  · rw [decide_eq_false low, Bool.and_false, BitVec.getLsbD_of_ge _ _ (by omega)]

/-- It is the same when the low halves are cleared first. -/
theorem srli_epi16_andnot (i : ℕ) : srli_epi16 (andnot (set1_epi8 0xf) v) 4 i = v i >>> 4 := by
  refine BitVec.eq_of_getLsbD_eq fun bit below => ?_
  have cleared : ∀ i, ∀ bit < 8, (andnot (set1_epi8 0xf) v i).getLsbD bit = (!decide (bit < 4) && (v i).getLsbD bit) := by
    intro i bit below
    rw [andnot, set1_epi8, BitVec.getLsbD_and, BitVec.getLsbD_not, decide_eq_true below, Bool.true_and,
      nibble_mask below]
  rw [getLsbD_srli_epi16 _ i below, BitVec.getLsbD_ushiftRight, Nat.add_comm 4]
  by_cases low : bit < 4
  · rw [if_pos low, cleared _ _ (by omega), decide_eq_false (by omega)]
    rfl
  · rw [if_neg low, cleared _ _ (by omega), decide_eq_true (by omega), BitVec.getLsbD_of_ge _ (bit + 4) (by omega)]
    exact ite_self _

/-- The low half of each byte, moved up. -/
theorem slli_epi16_and (i : ℕ) : slli_epi16 (and v (set1_epi8 0xf)) 4 i = v i <<< 4 := by
  refine BitVec.eq_of_getLsbD_eq fun bit below => ?_
  have kept : ∀ i, ∀ bit < 8, (and v (set1_epi8 0xf) i).getLsbD bit = ((v i).getLsbD bit && decide (bit < 4)) := by
    intro i bit below
    rw [and, set1_epi8, BitVec.getLsbD_and, nibble_mask below]
  rw [getLsbD_slli_epi16 _ i below, BitVec.getLsbD_shiftLeft, decide_eq_true below, Bool.true_and]
  by_cases low : bit < 4
  · rw [if_pos low, kept _ _ (by omega), decide_eq_false (by omega : ¬ bit + 4 < 4), Bool.and_false, ite_self,
      decide_eq_true low]
    rfl
  · rw [if_neg low, kept _ _ (by omega), decide_eq_true (by omega : bit - 4 < 4), Bool.and_true, decide_eq_false low]
    rfl

/-- It is the same when the low halves are cleared afterwards. -/
theorem slli_epi16_andnot (i : ℕ) : slli_epi16 v 4 i &&& ~~~(0xf : BitVec 8) = v i <<< 4 := by
  refine BitVec.eq_of_getLsbD_eq fun bit below => ?_
  rw [BitVec.getLsbD_and, BitVec.getLsbD_not, decide_eq_true below, Bool.true_and, nibble_mask below,
    getLsbD_slli_epi16 v i below, BitVec.getLsbD_shiftLeft, decide_eq_true below, Bool.true_and]
  by_cases low : bit < 4
  · rw [decide_eq_true low, Bool.not_true, Bool.and_false]
    rfl
  · rw [if_neg low, decide_eq_false low, Bool.not_false, Bool.and_true, Bool.true_and]

end Elements

/-! ## Immediates -/

theorem ternary_bit (a b c imm : BitVec 8) {bit : ℕ} (below : bit < 8) :
    (ternary a b c imm).getLsbD bit =
      imm.getLsbD (4 * (a.getLsbD bit).toNat + 2 * (b.getLsbD bit).toNat + (c.getLsbD bit).toNat) := by
  rw [ternary, BitVec.getLsbD_ofNat, decide_eq_true below, Bool.true_and, Nat.testBit_ofBits, dif_pos below]

theorem ternary_xor (a b c : BitVec 8) : ternary a b c 0x96 = a ^^^ b ^^^ c := by
  refine BitVec.eq_of_getLsbD_eq fun bit below => ?_
  rw [ternary_bit a b c _ below, BitVec.getLsbD_xor, BitVec.getLsbD_xor]
  cases a.getLsbD bit <;> cases b.getLsbD bit <;> cases c.getLsbD bit <;> rfl

theorem ternarylogic_xor (a b c : Bytes) : ternarylogic a b c 0x96 = xor (xor a b) c :=
  funext fun i => ternary_xor (a i) (b i) (c i)

/-- What is not masked is taken from the third register. -/
theorem ternary_merge (a b c : BitVec 8) : ternary a b c 0xF2 = a ||| c &&& ~~~b := by
  refine BitVec.eq_of_getLsbD_eq fun bit below => ?_
  rw [ternary_bit a b c _ below, BitVec.getLsbD_or, BitVec.getLsbD_and, BitVec.getLsbD_not,
    decide_eq_true below, Bool.true_and]
  cases a.getLsbD bit <;> cases b.getLsbD bit <;> cases c.getLsbD bit <;> rfl

end ByteVectors
