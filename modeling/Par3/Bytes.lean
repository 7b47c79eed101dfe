import Mathlib.Data.List.Basic
import Mathlib.Data.Nat.Log
import Mathlib.Tactic.Linarith
import Mathlib.Tactic.Ring
import Mathlib.Tactic.NormNum

/-!
# Byte buffers

Buffers are lists of bytes. Integers are stored little-endian, and the program reads
64-bit integers into double-precision numbers: a value of more than 53 significant bits
is rounded to the nearest representable one, ties to even.
-/

namespace Par3

/-- A buffer, or the contents of a file. -/
abbrev Buffer := List UInt8

/-- The largest `size_t`. -/
def SIZE_MAX : ℕ := 2 ^ 64 - 1

/-- The bytes from one offset up to another, as far as the buffer reaches. -/
def slice (buf : Buffer) (start stop : ℕ) : Buffer := (buf.drop start).take (stop - start)

theorem slice_length (buf : Buffer) (start stop : ℕ) (inside : stop ≤ buf.length) :
    (slice buf start stop).length = stop - start := by
  rw [slice, List.length_take, List.length_drop]
  omega

/-- A slice that lies in the first part of a buffer does not see the rest. -/
theorem slice_append (buf more : Buffer) (start stop : ℕ) (inside : stop ≤ buf.length) :
    slice (buf ++ more) start stop = slice buf start stop := by
  rcases Nat.lt_or_ge stop start with empty | ordered
  · simp [slice, Nat.sub_eq_zero_of_le (Nat.le_of_lt empty)]
  · rw [slice, slice, List.drop_append_of_le_length (by omega),
      List.take_append_of_le_length (by rw [List.length_drop]; omega)]

/-- A byte that is changed inside a slice. -/
theorem slice_set (buf : Buffer) (start stop index : ℕ) (byte : UInt8) :
    slice (buf.set (start + index) byte) start stop = (slice buf start stop).set index byte := by
  have behind : start + index - start = index := by omega
  rw [slice, slice, List.drop_set, if_neg (by omega), behind, List.take_set]

/-- Slices depend on their own bytes only. -/
theorem slice_congr {left right : Buffer} (start stop : ℕ)
    (same : ∀ position, start ≤ position → position < stop → left[position]? = right[position]?) :
    slice left start stop = slice right start stop := by
  refine List.ext_getElem? fun index => ?_
  rw [slice, slice]
  by_cases inside : index < stop - start
  · rw [List.getElem?_take_of_lt inside, List.getElem?_take_of_lt inside, List.getElem?_drop,
      List.getElem?_drop]
    exact same _ (by omega) (by omega)
  · rw [List.getElem?_take_eq_none (by omega), List.getElem?_take_eq_none (by omega)]

theorem slice_drop (buf : Buffer) (base start stop : ℕ) :
    slice (buf.drop base) start stop = slice buf (base + start) (base + stop) := by
  rw [slice, slice, List.drop_drop]
  congr 1
  omega

/-- The number whose little-endian base-256 digits are the bytes. -/
def littleEndian : Buffer → ℕ
  | [] => 0
  | byte :: rest => byte.toNat + 256 * littleEndian rest

theorem littleEndian_lt (bytes : Buffer) : littleEndian bytes < 256 ^ bytes.length := by
  induction bytes with
  | nil => decide
  | cons byte rest ih =>
    have digit : byte.toNat < 256 := byte.toNat_lt
    rw [littleEndian, List.length_cons, Nat.pow_succ]
    omega

/-- The low `count` little-endian base-256 digits of a number. -/
def toLittleEndian : ℕ → ℕ → Buffer
  | 0, _ => []
  | count + 1, value => UInt8.ofNat (value % 256) :: toLittleEndian count (value / 256)

@[simp] theorem toLittleEndian_length (count value : ℕ) :
    (toLittleEndian count value).length = count := by
  induction count generalizing value with
  | zero => rfl
  | succ count ih => simp [toLittleEndian, ih]

/-- Writing the digits of a number that fits and reading them back is the identity. -/
theorem littleEndian_toLittleEndian (count value : ℕ) (fits : value < 256 ^ count) :
    littleEndian (toLittleEndian count value) = value := by
  induction count generalizing value with
  | zero => simp [toLittleEndian, littleEndian] at fits ⊢; omega
  | succ count ih =>
    rw [Nat.pow_succ] at fits
    have digit : (UInt8.ofNat (value % 256)).toNat = value % 256 := by
      rw [UInt8.toNat_ofNat']
      omega
    rw [toLittleEndian, littleEndian, ih (value / 256) (by omega), digit]
    omega

/-- Round to 53 significant bits, to nearest with ties to even, as storing an integer in a
double does. -/
def roundDouble (value : ℕ) : ℕ :=
  let shift := value.log2 - 52
  let quotient := value / 2 ^ shift
  let remainder := value % 2 ^ shift
  if 2 ^ shift < 2 * remainder ∨ (2 ^ shift = 2 * remainder ∧ quotient % 2 = 1) then
    (quotient + 1) * 2 ^ shift
  else
    quotient * 2 ^ shift

/-- Integers of at most 53 bits are exact. -/
theorem roundDouble_of_lt (value : ℕ) (small : value < 2 ^ 53) : roundDouble value = value := by
  have exact : value.log2 - 52 = 0 := by
    rcases Nat.eq_zero_or_pos value with zero | pos
    · simp [zero]
    · have bound : value.log2 < 53 := (Nat.log2_lt (by omega)).mpr small
      omega
  simp [roundDouble, exact, Nat.mod_one]

/-- A number whose low bits are zero beyond the 53 leading ones is exact. -/
theorem roundDouble_of_dvd (value : ℕ) (exact : 2 ^ (value.log2 - 52) ∣ value) :
    roundDouble value = value := by
  have none := Nat.mod_eq_zero_of_dvd exact
  have pos : 0 < 2 ^ (value.log2 - 52) := Nat.two_pow_pos _
  have stays : ¬ (2 ^ (value.log2 - 52) < 2 * (value % 2 ^ (value.log2 - 52)) ∨
      (2 ^ (value.log2 - 52) = 2 * (value % 2 ^ (value.log2 - 52)) ∧
        value / 2 ^ (value.log2 - 52) % 2 = 1)) := by omega
  simp only [roundDouble, if_neg stays]
  exact Nat.div_mul_cancel exact

/-- Rounding twice is rounding once. A rounded quotient has 53 bits, or is the power of two
behind them, which only moves the unit by one place. -/
theorem roundDouble_roundDouble (value : ℕ) :
    roundDouble (roundDouble value) = roundDouble value := by
  have bits : value < 2 ^ 53 * 2 ^ (value.log2 - 52) := by
    rw [← Nat.pow_add]
    exact lt_of_lt_of_le (Nat.lt_log2_self (n := value)) (Nat.pow_le_pow_right (by omega) (by omega))
  obtain ⟨quotient, small, rounded⟩ : ∃ quotient ≤ 2 ^ 53,
      roundDouble value = quotient * 2 ^ (value.log2 - 52) := by
    have quotient := Nat.div_lt_of_lt_mul (Nat.mul_comm _ _ ▸ bits)
    simp only [roundDouble]
    split
    · exact ⟨_, quotient, rfl⟩
    · exact ⟨_, quotient.le, rfl⟩
  refine roundDouble_of_dvd _ ?_
  rw [rounded]
  rcases Nat.lt_or_eq_of_le small with less | full
  · refine Nat.dvd_trans (Nat.pow_dvd_pow 2 ?_) (Nat.dvd_mul_left _ quotient)
    rcases Nat.eq_zero_or_pos quotient with zero | pos
    · simp [zero]
    · have product : quotient * 2 ^ (value.log2 - 52) < 2 ^ (53 + (value.log2 - 52)) := by
        rw [Nat.pow_add]
        exact Nat.mul_lt_mul_of_pos_right less (Nat.two_pow_pos _)
      have nonzero : quotient * 2 ^ (value.log2 - 52) ≠ 0 :=
        (Nat.mul_pos pos (Nat.two_pow_pos _)).ne'
      have width := (Nat.log2_lt nonzero).mpr product
      omega
  · rw [full, ← Nat.pow_add, Nat.log2_two_pow]
    exact Nat.pow_dvd_pow 2 (by omega)

/-- `lo + hi * 0x100000000`, for an offset inside the buffer. -/
def uint64At (buf : Buffer) (offset : ℕ) : ℕ :=
  roundDouble (littleEndian (slice buf offset (offset + 4)) +
    littleEndian (slice buf (offset + 4) (offset + 8)) * 0x100000000)

/-- Storing a 64-bit integer in a double moves it by less than the first 53 bits show. -/
theorem roundDouble_near (value : ℕ) (small : value < 2 ^ 64) :
    roundDouble value ≤ value + 2 ^ 11 ∧ value ≤ roundDouble value + 2 ^ 11 := by
  have unit : 2 ^ (value.log2 - 52) ≤ 2 ^ 11 := by
    refine Nat.pow_le_pow_right (by omega) ?_
    by_cases zero : value = 0
    · simp [zero]
    · have bits := (Nat.log2_lt zero).mpr small
      omega
  have division := Nat.div_add_mod' value (2 ^ (value.log2 - 52))
  have rest := Nat.mod_lt value (Nat.two_pow_pos (value.log2 - 52))
  simp only [roundDouble]
  split
  · rw [Nat.succ_mul]
    omega
  · omega

/-- The source's reader throws a range error when the field is not inside the buffer. -/
def readUInt64LE (buf : Buffer) (offset : ℕ) : Option ℕ :=
  if offset + 8 ≤ buf.length then some (uint64At buf offset) else none

/-- The 32-bit reader, with the same range check. -/
def readUInt32LE (buf : Buffer) (offset : ℕ) : Option ℕ :=
  if offset + 4 ≤ buf.length then some (littleEndian (slice buf offset (offset + 4))) else none

theorem littleEndian_append (low high : Buffer) :
    littleEndian (low ++ high) = littleEndian low + 256 ^ low.length * littleEndian high := by
  induction low with
  | nil => simp [littleEndian]
  | cons byte rest ih =>
    rw [List.cons_append, littleEndian, littleEndian, ih, List.length_cons]
    ring

theorem slice_split (buf : Buffer) (start middle stop : ℕ) (first : start ≤ middle)
    (second : middle ≤ stop) :
    slice buf start stop = slice buf start middle ++ slice buf middle stop := by
  rw [slice, slice, slice, show stop - start = (middle - start) + (stop - middle) by omega,
    List.take_add, List.drop_drop]
  congr 3
  omega

/-- A field is the number its eight bytes stand for, rounded. -/
theorem uint64At_eq (buf : Buffer) (offset : ℕ) (inside : offset + 8 ≤ buf.length) :
    uint64At buf offset = roundDouble (littleEndian (slice buf offset (offset + 8))) := by
  have low : (slice buf offset (offset + 4)).length = 4 := by
    rw [slice_length _ _ _ (by omega)]
    omega
  rw [uint64At, slice_split buf offset (offset + 4) (offset + 8) (by omega) (by omega),
    littleEndian_append, low]
  congr 1
  ring

theorem littleEndian_set (bytes : Buffer) (index : ℕ) (inside : index < bytes.length)
    (byte : UInt8) :
    littleEndian (bytes.set index byte) + 256 ^ index * bytes[index].toNat =
      littleEndian bytes + 256 ^ index * byte.toNat := by
  induction bytes generalizing index with
  | nil => exact absurd inside (Nat.not_lt_zero _)
  | cons first rest ih =>
    cases index with
    | zero =>
      simp only [List.set_cons_zero, littleEndian, List.getElem_cons_zero]
      omega
    | succ index =>
      have later := ih index (by simpa using inside)
      simp only [List.set_cons_succ, littleEndian, List.getElem_cons_succ, Nat.pow_succ]
      linarith

/-- Another byte at the top of a field is another value, rounded or not. -/
theorem uint64At_set_top (buf : Buffer) (offset : ℕ) (inside : offset + 8 ≤ buf.length)
    (byte : UInt8) (different : buf[offset + 7]? ≠ some byte) :
    uint64At (buf.set (offset + 7) byte) offset ≠ uint64At buf offset := by
  have width := slice_length buf offset (offset + 8) inside
  rw [Nat.add_sub_cancel_left] at width
  have stays : (slice buf offset (offset + 8))[7] = buf[offset + 7] := by
    simp [slice]
  have changed := littleEndian_set (slice buf offset (offset + 8)) 7 (by omega) byte
  rw [stays, ← slice_set] at changed
  have before := littleEndian_lt (slice buf offset (offset + 8))
  have after := littleEndian_lt (slice (buf.set (offset + 7) byte) offset (offset + 8))
  rw [slice_set, List.length_set, width, ← slice_set] at after
  rw [width] at before
  have nearBefore := roundDouble_near _ (lt_of_lt_of_eq before (by norm_num))
  have nearAfter := roundDouble_near _ (lt_of_lt_of_eq after (by norm_num))
  have top : buf[offset + 7].toNat ≠ byte.toNat := by
    intro same
    exact different (by rw [List.getElem?_eq_getElem (by omega), UInt8.toNat_inj.mp same])
  rw [uint64At_eq _ _ (by rwa [List.length_set]), uint64At_eq _ _ inside]
  norm_num at changed
  omega

/-- A field that was written from an exact integer is read back. -/
theorem uint64At_written (buf : Buffer) (offset value : ℕ) (small : value < 2 ^ 53)
    (written : slice buf offset (offset + 8) = toLittleEndian 8 value) :
    uint64At buf offset = value := by
  have halves := slice_split buf offset (offset + 4) (offset + 8) (by omega) (by omega)
  have full : (slice buf offset (offset + 8)).length = 8 := by rw [written, toLittleEndian_length]
  have width : (slice buf offset (offset + 4)).length = 4 := by
    rw [slice, List.length_take, List.length_drop] at full ⊢
    omega
  have sum : littleEndian (slice buf offset (offset + 4)) +
      littleEndian (slice buf (offset + 4) (offset + 8)) * 0x100000000 = value := by
    rw [← littleEndian_toLittleEndian 8 value (lt_trans small (by norm_num)), ← written, halves,
      littleEndian_append, width]
    ring
  rw [uint64At, sum, roundDouble_of_lt value small]

theorem uint64At_append (buf more : Buffer) (offset : ℕ) (inside : offset + 8 ≤ buf.length) :
    uint64At (buf ++ more) offset = uint64At buf offset := by
  rw [uint64At, uint64At, slice_append _ _ _ _ (by omega), slice_append _ _ _ _ (by omega)]

theorem uint64At_drop (buf : Buffer) (base offset : ℕ) :
    uint64At (buf.drop base) offset = uint64At buf (base + offset) := by
  simp only [uint64At, slice_drop, Nat.add_assoc]

end Par3
