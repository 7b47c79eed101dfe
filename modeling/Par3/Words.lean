import Par3.Bytes
import Par3.Gf64

/-!
# Blocks as words

A block whose size is a multiple of eight is read as little-endian 64-bit words, each an
element of the field. Reading and writing are inverse to each other, so two blocks of
equal size are equal exactly when their words are.
-/

namespace Par3

/-- The field element whose bits are an index or a stored integer, modulo `2^64`. -/
def gf64OfNat (value : ℕ) : Gf64 := ⟨BitVec.ofNat 64 value⟩

/-- The word at a word offset, `readBigUInt64LE(8 * word)`. -/
def wordAt (buf : Buffer) (word : ℕ) : Gf64 :=
  gf64OfNat (littleEndian (slice buf (8 * word) (8 * word + 8)))

/-- The bytes of the first `count` words. -/
def ofWords (count : ℕ) (words : ℕ → Gf64) : Buffer :=
  (List.range count).flatMap fun word => toLittleEndian 8 (words word).bits.toNat

@[simp] theorem ofWords_length (count : ℕ) (words : ℕ → Gf64) :
    (ofWords count words).length = 8 * count := by
  simp [ofWords, List.length_flatMap, Nat.mul_comm]

theorem ofWords_congr (count : ℕ) {left right : ℕ → Gf64}
    (same : ∀ word < count, left word = right word) : ofWords count left = ofWords count right := by
  unfold ofWords
  rw [List.flatMap_def, List.flatMap_def, List.map_congr_left]
  intro word member
  rw [same word (List.mem_range.mp member)]

theorem ofWords_succ (count : ℕ) (words : ℕ → Gf64) :
    ofWords (count + 1) words =
      ofWords count words ++ toLittleEndian 8 (words count).bits.toNat := by
  simp [ofWords, List.range_succ, List.flatMap_append]

theorem littleEndian_zeros (count : ℕ) : littleEndian (List.replicate count 0) = 0 := by
  induction count with
  | zero => rfl
  | succ count ih =>
    rw [List.replicate_succ, littleEndian, ih]
    rfl

/-- Every word of a zero buffer is zero. -/
theorem wordAt_zeros (count word : ℕ) : wordAt (List.replicate count 0) word = 0 := by
  rw [wordAt, slice, List.drop_replicate, List.take_replicate, littleEndian_zeros]
  rfl

/-- Writing eight bytes that were read gives the same bytes. -/
theorem toLittleEndian_littleEndian (bytes : Buffer) :
    toLittleEndian bytes.length (littleEndian bytes) = bytes := by
  induction bytes with
  | nil => rfl
  | cons byte rest ih =>
    have digit : byte.toNat < 256 := byte.toNat_lt
    have low : (byte.toNat + 256 * littleEndian rest) % 256 = byte.toNat := by omega
    have high : (byte.toNat + 256 * littleEndian rest) / 256 = littleEndian rest := by omega
    rw [List.length_cons, littleEndian, toLittleEndian, low, high, ih,
      UInt8.ofNat_toNat]

theorem gf64OfNat_toNat (value : ℕ) (fits : value < 2 ^ 64) :
    (gf64OfNat value).bits.toNat = value := by
  simpa [gf64OfNat] using fits

theorem gf64OfNat_injective {left right : ℕ} (leftFits : left < 2 ^ 64) (rightFits : right < 2 ^ 64)
    (same : gf64OfNat left = gf64OfNat right) : left = right := by
  rw [← gf64OfNat_toNat left leftFits, ← gf64OfNat_toNat right rightFits, same]

/-- A buffer of whole words is written back from its words. -/
theorem ofWords_wordAt (count : ℕ) (buf : Buffer) (length : buf.length = 8 * count) :
    ofWords count (wordAt buf) = buf := by
  have general : ∀ prefixCount ≤ count,
      ofWords prefixCount (wordAt buf) = buf.take (8 * prefixCount) := by
    intro prefixCount
    induction prefixCount with
    | zero => simp [ofWords]
    | succ prefixCount ih =>
      intro bound
      have width : (slice buf (8 * prefixCount) (8 * prefixCount + 8)).length = 8 := by
        rw [slice_length _ _ _ (by omega)]
        omega
      have value : littleEndian (slice buf (8 * prefixCount) (8 * prefixCount + 8)) < 2 ^ 64 := by
        have bound := littleEndian_lt (slice buf (8 * prefixCount) (8 * prefixCount + 8))
        rw [width] at bound
        exact lt_of_lt_of_eq bound (by norm_num)
      have word : toLittleEndian 8 (wordAt buf prefixCount).bits.toNat =
          slice buf (8 * prefixCount) (8 * prefixCount + 8) := by
        rw [wordAt, gf64OfNat_toNat _ value]
        have written := toLittleEndian_littleEndian
          (slice buf (8 * prefixCount) (8 * prefixCount + 8))
        rwa [width] at written
      rw [ofWords_succ, ih (by omega), word, slice, Nat.mul_succ,
        List.take_add]
      congr 2
      omega
  rw [general count le_rfl, ← length, List.take_length]

/-- The words that were written are read back. -/
theorem wordAt_ofWords (count : ℕ) (words : ℕ → Gf64) (word : ℕ) (inside : word < count) :
    wordAt (ofWords count words) word = words word := by
  induction count with
  | zero => omega
  | succ count ih =>
    rw [ofWords_succ]
    rcases Nat.lt_succ_iff_lt_or_eq.mp inside with earlier | last
    · rw [wordAt, slice_append _ _ _ _ (by rw [ofWords_length]; omega)]
      exact ih earlier
    · subst last
      have written : slice (ofWords word words ++ toLittleEndian 8 (words word).bits.toNat)
          (8 * word) (8 * word + 8) = toLittleEndian 8 (words word).bits.toNat := by
        rw [slice, List.drop_append_of_le_length (by simp), List.drop_eq_nil_of_le (by simp)]
        exact List.take_of_length_le (by simp)
      rw [wordAt, written, littleEndian_toLittleEndian 8 _ (lt_of_lt_of_eq (words word).bits.isLt
        (by norm_num))]
      simp [gf64OfNat]

end Par3
