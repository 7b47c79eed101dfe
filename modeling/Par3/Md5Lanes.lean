import Mathlib.Tactic.IntervalCases
import Mathlib.Tactic.NormNum
import Par3.Bytes

/-!
# Lanes of MD5 states

A vector holds one word of the state of several hashes, one in each lane. The hashes that are done are
taken out of the lanes with shuffles, which differ between instruction sets.
-/
namespace Par3

/-- A vector of 32-bit words. -/
abbrev Dwords := ℕ → BitVec 32

namespace Dwords

variable (a b : Dwords)

def unpacklo_epi32 : Dwords := fun i =>
  if i % 2 = 0 then a (i / 4 * 4 + i % 4 / 2) else b (i / 4 * 4 + i % 4 / 2)

def unpackhi_epi32 : Dwords := fun i =>
  if i % 2 = 0 then a (i / 4 * 4 + 2 + i % 4 / 2) else b (i / 4 * 4 + 2 + i % 4 / 2)

def unpacklo_epi64 : Dwords := fun i =>
  if i % 4 < 2 then a (i / 4 * 4 + i % 2) else b (i / 4 * 4 + i % 2)

def unpackhi_epi64 : Dwords := fun i =>
  if i % 4 < 2 then a (i / 4 * 4 + 2 + i % 2) else b (i / 4 * 4 + 2 + i % 2)

/-- A part of 128 bits -/
def extract128 (part : ℕ) : Dwords := fun i => a (4 * part + i)

def inserti128 : Dwords := fun i => if i < 4 then a i else b (i - 4)

/-- With 0x31: the upper halves of both -/
def permute2x128 : Dwords := fun i => if i < 4 then a (i + 4) else b i

def inserti64x4 : Dwords := fun i => if i < 8 then a i else b (i - 8)

/-- Two parts of 128 bits of one, then two of the other -/
def shuffle_i64x2 (w x y z : ℕ) : Dwords := fun i =>
  if i < 4 then a (4 * w + i)
  else if i < 8 then a (4 * x + (i - 4))
  else if i < 12 then b (4 * y + (i - 8))
  else b (4 * z + (i - 12))

/-- `vzipq_u32`, the lower and the upper half -/
def zip_lo : Dwords := fun i => if i % 2 = 0 then a (i / 2) else b (i / 2)

def zip_hi : Dwords := fun i => if i % 2 = 0 then a (2 + i / 2) else b (2 + i / 2)

def combine_low : Dwords := fun i => if i < 2 then a i else b (i - 2)

def combine_high : Dwords := fun i => if i < 2 then a (2 + i) else b i

/-- `svzip2_u32`, for vectors of so many words -/
def svzip2_u32 (words : ℕ) : Dwords := fun i =>
  if i % 2 = 0 then a (words / 2 + i / 2) else b (words / 2 + i / 2)

def svzip1_u64 : Dwords := fun i =>
  if i / 2 % 2 = 0 then a (2 * (i / 2 / 2) + i % 2) else b (2 * (i / 2 / 2) + i % 2)

def svzip2_u64 (words : ℕ) : Dwords := fun i =>
  if i / 2 % 2 = 0 then a (2 * (words / 4 + i / 2 / 2) + i % 2)
  else b (2 * (words / 4 + i / 2 / 2) + i % 2)

end Dwords

/-- So many words in memory. -/
def storeDwords (count : ℕ) (v : Dwords) : Buffer :=
  (List.range count).flatMap fun i => toLittleEndian 4 (v i).toNat

/-- The instruction sets with kernels; a vector of SVE2 has a multiple of four words. -/
inductive Md5Kernel
  | scalar
  | sse
  | avx2
  | avx512
  | neon
  | sve2 (quarter : ℕ) (quarter_pos : 0 < quarter)

/-- The vectors of a state: four for each half. -/
abbrev Md5Vectors := ℕ → Dwords

open Dwords

def md5_extract_mb_scalar (state : Md5Vectors) (idx : ℕ) : Buffer :=
  storeDwords 4 fun i => state (idx * 4 + i) 0

def md5_extract_all_mb_scalar (state : Md5Vectors) (group : ℕ) : Buffer :=
  md5_extract_mb_scalar state group

def md5_extract_mb_sse (state : Md5Vectors) (idx : ℕ) : Buffer :=
  let state_ := fun word => state ((idx &&& 4) + word)
  let tmp1 := unpacklo_epi32 (state_ 0) (state_ 1)
  let tmp2 := unpackhi_epi32 (state_ 0) (state_ 1)
  let tmp3 := unpacklo_epi32 (state_ 2) (state_ 3)
  let tmp4 := unpackhi_epi32 (state_ 2) (state_ 3)
  match idx &&& 3 with
  | 0 => storeDwords 4 (unpacklo_epi64 tmp1 tmp3)
  | 1 => storeDwords 4 (unpackhi_epi64 tmp1 tmp3)
  | 2 => storeDwords 4 (unpacklo_epi64 tmp2 tmp4)
  | _ => storeDwords 4 (unpackhi_epi64 tmp2 tmp4)

def md5_extract_all_mb_sse (state : Md5Vectors) (group : ℕ) : Buffer :=
  let state_ := fun word => state (group * 4 + word)
  let tmp1 := unpacklo_epi32 (state_ 0) (state_ 1)
  let tmp2 := unpackhi_epi32 (state_ 0) (state_ 1)
  let tmp3 := unpacklo_epi32 (state_ 2) (state_ 3)
  let tmp4 := unpackhi_epi32 (state_ 2) (state_ 3)
  storeDwords 4 (unpacklo_epi64 tmp1 tmp3) ++ storeDwords 4 (unpackhi_epi64 tmp1 tmp3) ++
    storeDwords 4 (unpacklo_epi64 tmp2 tmp4) ++ storeDwords 4 (unpackhi_epi64 tmp2 tmp4)

/-- The four vectors that `md5_extract_mb_avx2` and `md5_extract_mb_avx512` take the parts of. -/
def extractTmp (state_ : ℕ → Dwords) : ℕ → Dwords
  | 0 => unpacklo_epi64 (unpacklo_epi32 (state_ 0) (state_ 1)) (unpacklo_epi32 (state_ 2) (state_ 3))
  | 1 => unpackhi_epi64 (unpacklo_epi32 (state_ 0) (state_ 1)) (unpacklo_epi32 (state_ 2) (state_ 3))
  | 2 => unpacklo_epi64 (unpackhi_epi32 (state_ 0) (state_ 1)) (unpackhi_epi32 (state_ 2) (state_ 3))
  | _ => unpackhi_epi64 (unpackhi_epi32 (state_ 0) (state_ 1)) (unpackhi_epi32 (state_ 2) (state_ 3))

def md5_extract_mb_avx2 (state : Md5Vectors) (idx : ℕ) : Buffer :=
  let tmp := extractTmp fun word => state (((idx &&& 8) >>> 1) + word)
  match idx &&& 7 with
  | 0 => storeDwords 4 (tmp 0)
  | 1 => storeDwords 4 (tmp 1)
  | 2 => storeDwords 4 (tmp 2)
  | 3 => storeDwords 4 (tmp 3)
  | 4 => storeDwords 4 (extract128 (tmp 0) 1)
  | 5 => storeDwords 4 (extract128 (tmp 1) 1)
  | 6 => storeDwords 4 (extract128 (tmp 2) 1)
  | _ => storeDwords 4 (extract128 (tmp 3) 1)

def md5_extract_all_mb_avx2 (state : Md5Vectors) (group : ℕ) : Buffer :=
  let tmp := extractTmp fun word => state (group * 4 + word)
  storeDwords 8 (inserti128 (tmp 0) (tmp 1)) ++ storeDwords 8 (inserti128 (tmp 2) (tmp 3)) ++
    storeDwords 8 (permute2x128 (tmp 0) (tmp 1)) ++ storeDwords 8 (permute2x128 (tmp 2) (tmp 3))

def md5_extract_mb_avx512 (state : Md5Vectors) (idx : ℕ) : Buffer :=
  let tmp := extractTmp fun word => state (((idx &&& 16) >>> 2) + word)
  match idx &&& 15 with
  | 0 => storeDwords 4 (tmp 0)
  | 1 => storeDwords 4 (tmp 1)
  | 2 => storeDwords 4 (tmp 2)
  | 3 => storeDwords 4 (tmp 3)
  | 4 => storeDwords 4 (extract128 (tmp 0) 1)
  | 5 => storeDwords 4 (extract128 (tmp 1) 1)
  | 6 => storeDwords 4 (extract128 (tmp 2) 1)
  | 7 => storeDwords 4 (extract128 (tmp 3) 1)
  | 8 => storeDwords 4 (extract128 (tmp 0) 2)
  | 9 => storeDwords 4 (extract128 (tmp 1) 2)
  | 10 => storeDwords 4 (extract128 (tmp 2) 2)
  | 11 => storeDwords 4 (extract128 (tmp 3) 2)
  | 12 => storeDwords 4 (extract128 (tmp 0) 3)
  | 13 => storeDwords 4 (extract128 (tmp 1) 3)
  | 14 => storeDwords 4 (extract128 (tmp 2) 3)
  | _ => storeDwords 4 (extract128 (tmp 3) 3)

def md5_extract_all_mb_avx512 (state : Md5Vectors) (group : ℕ) : Buffer :=
  let tmp := extractTmp fun word => state (group * 4 + word)
  let out0415 := inserti64x4 (tmp 0) (tmp 1)
  let out2637 := inserti64x4 (tmp 2) (tmp 3)
  let out8C9D := shuffle_i64x2 (tmp 0) (tmp 1) 2 3 2 3
  let outAEBF := shuffle_i64x2 (tmp 2) (tmp 3) 2 3 2 3
  storeDwords 16 (shuffle_i64x2 out0415 out2637 0 2 0 2) ++
    storeDwords 16 (shuffle_i64x2 out0415 out2637 1 3 1 3) ++
    storeDwords 16 (shuffle_i64x2 out8C9D outAEBF 0 2 0 2) ++
    storeDwords 16 (shuffle_i64x2 out8C9D outAEBF 1 3 1 3)

def md5_extract_mb_neon (state : Md5Vectors) (idx : ℕ) : Buffer :=
  let state_ := fun word => state ((idx &&& 4) + word)
  match idx &&& 3 with
  | 0 => storeDwords 4 (combine_low (zip_lo (state_ 0) (state_ 1)) (zip_lo (state_ 2) (state_ 3)))
  | 1 => storeDwords 4 (combine_high (zip_lo (state_ 0) (state_ 1)) (zip_lo (state_ 2) (state_ 3)))
  | 2 => storeDwords 4 (combine_low (zip_hi (state_ 0) (state_ 1)) (zip_hi (state_ 2) (state_ 3)))
  | _ => storeDwords 4 (combine_high (zip_hi (state_ 0) (state_ 1)) (zip_hi (state_ 2) (state_ 3)))

/-- `vst4q_u32` and `svst4_u32` write the words of four vectors in turn. -/
def storeFour (words : ℕ) (state_ : ℕ → Dwords) : Buffer :=
  storeDwords (4 * words) fun i => state_ (i % 4) (i / 4)

def md5_extract_all_mb_neon (state : Md5Vectors) (group : ℕ) : Buffer :=
  storeFour 4 fun word => state (group * 4 + word)

def md5_extract_mb_sve2 (svcntw : ℕ) (state : Md5Vectors) (idx : ℕ) : Buffer :=
  let (state_, idx) : (ℕ → Dwords) × ℕ :=
    if idx ≥ svcntw then (fun word => state (4 + word), idx - svcntw) else (state, idx)
  let tmp0 := zip_lo (state_ 0) (state_ 1)
  let tmp1 := svzip2_u32 (state_ 0) (state_ 1) svcntw
  let tmp2 := zip_lo (state_ 2) (state_ 3)
  let tmp3 := svzip2_u32 (state_ 2) (state_ 3) svcntw
  let vect :=
    match idx / (svcntw / 4) with
    | 0 => svzip1_u64 tmp0 tmp2
    | 1 => svzip2_u64 tmp0 tmp2 svcntw
    | 2 => svzip1_u64 tmp1 tmp3
    | _ => svzip2_u64 tmp1 tmp3 svcntw
  let subIdx := idx % (svcntw / 4)
  storeDwords 4 fun i => vect (subIdx * 4 + i)

def md5_extract_all_mb_sve2 (svcntw : ℕ) (state : Md5Vectors) (group : ℕ) : Buffer :=
  storeFour svcntw fun word => state (group * 4 + word)

namespace Md5Kernel

/-- `md5mb_base_regions` -/
def regions : Md5Kernel → ℕ
  | scalar => 1
  | sse => 4
  | avx2 => 8
  | avx512 => 16
  | neon => 4
  | sve2 quarter _ => 4 * quarter

def extract : Md5Kernel → Md5Vectors → ℕ → Buffer
  | scalar => md5_extract_mb_scalar
  | sse => md5_extract_mb_sse
  | avx2 => md5_extract_mb_avx2
  | avx512 => md5_extract_mb_avx512
  | neon => md5_extract_mb_neon
  | sve2 quarter _ => md5_extract_mb_sve2 (4 * quarter)

def extractAll : Md5Kernel → Md5Vectors → ℕ → Buffer
  | scalar => md5_extract_all_mb_scalar
  | sse => md5_extract_all_mb_sse
  | avx2 => md5_extract_all_mb_avx2
  | avx512 => md5_extract_all_mb_avx512
  | neon => md5_extract_all_mb_neon
  | sve2 quarter _ => md5_extract_all_mb_sve2 (4 * quarter)

theorem regions_pos (kernel : Md5Kernel) : 0 < kernel.regions := by
  cases kernel with
  | sve2 quarter quarter_pos => exact Nat.mul_pos (by decide) quarter_pos
  | _ => decide

end Md5Kernel

/-- The state of one lane in one half. -/
def laneState (state : Md5Vectors) (half lane : ℕ) : Dwords := fun word => state (half * 4 + word) lane

/-- Words in memory -/
def wordBytes (words : List (BitVec 32)) : Buffer := words.flatMap fun word => toLittleEndian 4 word.toNat

theorem storeDwords_eq (count : ℕ) (v : Dwords) : storeDwords count v = wordBytes ((List.range count).map v) := by
  rw [storeDwords, wordBytes, List.flatMap_map]

theorem wordBytes_append (first second : List (BitVec 32)) :
    wordBytes (first ++ second) = wordBytes first ++ wordBytes second := List.flatMap_append

theorem storeDwords_congr {count : ℕ} {v w : Dwords} (same : ∀ i < count, v i = w i) :
    storeDwords count v = storeDwords count w := by
  rw [storeDwords, storeDwords]
  refine List.flatMap_congr fun i inside => ?_
  rw [same i (List.mem_range.mp inside)]

/-- Words in memory one part after the other. -/
theorem storeDwords_parts (parts count : ℕ) (v : Dwords) : storeDwords (count * parts) v =
    (List.range parts).flatMap fun part => storeDwords count fun i => v (count * part + i) := by
  induction parts with
  | zero => rfl
  | succ parts ih =>
    rw [List.range_succ, List.flatMap_append, List.flatMap_singleton, ← ih, storeDwords,
      Nat.mul_succ, List.range_add, List.flatMap_append, List.flatMap_map]
    rfl

theorem storeFour_eq (words : ℕ) (state_ : ℕ → Dwords) : storeFour words state_ =
    (List.range words).flatMap fun lane => storeDwords 4 fun word => state_ word lane := by
  rw [storeFour, storeDwords_parts]
  refine List.flatMap_congr fun lane _ => storeDwords_congr fun word below => ?_
  have index : (4 * lane + word) % 4 = word := by omega
  have position : (4 * lane + word) / 4 = lane := by omega
  rw [index, position]

/-! ## Vectors of any length -/

section
variable (a b : Dwords) {words pair word : ℕ}

theorem zip_lo_at (below : word < 2) : zip_lo a b (2 * pair + word) = if word = 0 then a pair else b pair := by
  interval_cases word
  · rw [zip_lo, if_pos (by omega), if_pos rfl]
    congr 1
    omega
  · rw [zip_lo, if_neg (by omega), if_neg Nat.one_ne_zero]
    congr 1
    omega

theorem svzip2_u32_at (below : word < 2) : svzip2_u32 a b words (2 * pair + word) =
    if word = 0 then a (words / 2 + pair) else b (words / 2 + pair) := by
  interval_cases word
  · rw [svzip2_u32, if_pos (by omega), if_pos rfl]
    congr 1
    omega
  · rw [svzip2_u32, if_neg (by omega), if_neg Nat.one_ne_zero]
    congr 1
    omega

theorem svzip1_u64_at (below : word < 4) : svzip1_u64 a b (pair * 4 + word) =
    if word < 2 then a (2 * pair + word % 2) else b (2 * pair + word % 2) := by
  rw [svzip1_u64]
  by_cases first : word < 2
  · rw [if_pos first, if_pos (by omega)]
    congr 1
    omega
  · rw [if_neg first, if_neg (by omega)]
    congr 1
    omega

theorem svzip2_u64_at (below : word < 4) : svzip2_u64 a b words (pair * 4 + word) =
    if word < 2 then a (2 * (words / 4 + pair) + word % 2) else b (2 * (words / 4 + pair) + word % 2) := by
  rw [svzip2_u64]
  by_cases first : word < 2
  · rw [if_pos first, if_pos (by omega)]
    congr 1
    omega
  · rw [if_neg first, if_neg (by omega)]
    congr 1
    omega

end

/-- A lane of one half, in its quarter of the vectors. -/
theorem md5_extract_mb_sve2_eq {quarter : ℕ} (state : Md5Vectors) {part sub : ℕ} (inside : part < 4)
    (below : sub < quarter) : md5_extract_mb_sve2 (4 * quarter) state (part * quarter + sub) =
      storeDwords 4 (laneState state 0 (part * quarter + sub)) := by
  have less : part * quarter + sub < 4 * quarter := by
    have := Nat.mul_le_mul_right quarter (Nat.le_of_lt_succ inside)
    omega
  have count : 4 * quarter / 4 = quarter := by omega
  have chosen : (part * quarter + sub) / quarter = part := (Nat.div_eq_iff (by omega)).mpr
    ⟨Nat.le_add_right _ _, by omega⟩
  have rest : (part * quarter + sub) % quarter = sub := by
    rw [Nat.mul_comm, Nat.mul_add_mod, Nat.mod_eq_of_lt below]
  rw [md5_extract_mb_sve2, if_neg (by omega), count]
  dsimp only
  rw [chosen, rest]
  have half : 4 * quarter / 2 = 2 * quarter := by omega
  refine storeDwords_congr fun word within => ?_
  have second : word % 2 < 2 := Nat.mod_lt word (by decide)
  rw [laneState, Nat.zero_mul, Nat.zero_add]
  interval_cases part
  · change svzip1_u64 (zip_lo (state 0) (state 1)) (zip_lo (state 2) (state 3)) (sub * 4 + word) = _
    rw [svzip1_u64_at _ _ within, zip_lo_at _ _ second, zip_lo_at _ _ second, Nat.zero_mul, Nat.zero_add]
    interval_cases word <;> rfl
  · change svzip2_u64 (zip_lo (state 0) (state 1)) (zip_lo (state 2) (state 3)) (4 * quarter)
      (sub * 4 + word) = _
    rw [svzip2_u64_at _ _ within, zip_lo_at _ _ second, zip_lo_at _ _ second, count, Nat.one_mul]
    interval_cases word <;> rfl
  · change svzip1_u64 (svzip2_u32 (state 0) (state 1) (4 * quarter))
      (svzip2_u32 (state 2) (state 3) (4 * quarter)) (sub * 4 + word) = _
    rw [svzip1_u64_at _ _ within, svzip2_u32_at _ _ second, svzip2_u32_at _ _ second, half]
    interval_cases word <;> rfl
  · change svzip2_u64 (svzip2_u32 (state 0) (state 1) (4 * quarter))
      (svzip2_u32 (state 2) (state 3) (4 * quarter)) (4 * quarter) (sub * 4 + word) = _
    rw [svzip2_u64_at _ _ within, svzip2_u32_at _ _ second, svzip2_u32_at _ _ second, count, half,
      show 2 * quarter + (quarter + sub) = 3 * quarter + sub by omega]
    interval_cases word <;> rfl

namespace Md5Kernel

/-- A hash is taken out of its half and lane. -/
theorem extract_eq (kernel : Md5Kernel) (state : Md5Vectors) {idx : ℕ} (inside : idx < 2 * kernel.regions) :
    kernel.extract state idx =
      storeDwords 4 (laneState state (idx / kernel.regions) (idx % kernel.regions)) := by
  cases kernel with
  | scalar =>
    rw [regions] at inside ⊢
    rw [extract, md5_extract_mb_scalar, Nat.div_one, Nat.mod_one]
    rfl
  | sse =>
    rw [regions] at inside ⊢
    interval_cases idx <;> rfl
  | avx2 =>
    rw [regions] at inside ⊢
    interval_cases idx <;> rfl
  | avx512 =>
    rw [regions] at inside ⊢
    interval_cases idx <;> rfl
  | neon =>
    rw [regions] at inside ⊢
    interval_cases idx <;> rfl
  | sve2 quarter quarter_pos =>
    rw [regions] at inside ⊢
    rw [extract]
    have place : ∀ lane, lane < 4 * quarter → ∀ state : Md5Vectors,
        md5_extract_mb_sve2 (4 * quarter) state lane = storeDwords 4 (laneState state 0 lane) := by
      intro lane below state
      have part : lane / quarter < 4 := Nat.div_lt_of_lt_mul (by rwa [Nat.mul_comm])
      have whole := Nat.div_add_mod lane quarter
      rw [Nat.mul_comm] at whole
      have eq := md5_extract_mb_sve2_eq state part (Nat.mod_lt lane quarter_pos)
      rwa [whole] at eq
    by_cases second : idx ≥ 4 * quarter
    · have half : idx / (4 * quarter) = 1 := (Nat.div_eq_iff (by omega)).mpr ⟨by omega, by omega⟩
      have lane : idx % (4 * quarter) = idx - 4 * quarter := by
        rw [Nat.mod_eq_sub_mod second, Nat.mod_eq_of_lt (by omega)]
      have moved := place (idx - 4 * quarter) (by omega) fun word => state (4 + word)
      rw [half, lane]
      rw [md5_extract_mb_sve2, if_neg (by omega)] at moved
      rw [md5_extract_mb_sve2, if_pos second]
      refine moved.trans (storeDwords_congr fun word _ => ?_)
      rw [laneState, laneState, Nat.zero_mul, Nat.zero_add, Nat.one_mul]
    · rw [Nat.div_eq_of_lt (by omega), Nat.mod_eq_of_lt (by omega)]
      exact place idx (by omega) state

set_option maxRecDepth 4000 in
/-- All hashes of a half, lane by lane. -/
theorem extractAll_eq (kernel : Md5Kernel) (state : Md5Vectors) (group : ℕ) :
    kernel.extractAll state group =
      (List.range kernel.regions).flatMap fun lane => storeDwords 4 (laneState state group lane) := by
  have lanes : ∀ count, wordBytes ((List.range count).flatMap fun lane =>
      (List.range 4).map (laneState state group lane)) =
        (List.range count).flatMap fun lane => wordBytes ((List.range 4).map (laneState state group lane)) :=
    fun count => by rw [wordBytes, List.flatMap_assoc]; rfl
  cases kernel with
  | scalar =>
    rw [regions, extractAll, md5_extract_all_mb_scalar, md5_extract_mb_scalar, List.range_one,
      List.flatMap_singleton]
    rfl
  | sse =>
    rw [extractAll, md5_extract_all_mb_sse]
    simp only [storeDwords_eq, ← wordBytes_append, ← lanes]
    exact congrArg wordBytes rfl
  | avx2 =>
    rw [extractAll, md5_extract_all_mb_avx2]
    simp only [storeDwords_eq, ← wordBytes_append, ← lanes]
    exact congrArg wordBytes rfl
  | avx512 =>
    rw [extractAll, md5_extract_all_mb_avx512]
    simp only [storeDwords_eq, ← wordBytes_append, ← lanes]
    exact congrArg wordBytes rfl
  | neon => exact storeFour_eq 4 fun word => state (group * 4 + word)
  | sve2 quarter quarter_pos => exact storeFour_eq (4 * quarter) fun word => state (group * 4 + word)

end Md5Kernel

end Par3
