import Par3.Foundations.NovelBasis
import Par3.Gf64

/-!
# Basis conversion of the additive transform

`hqc_cvt` rewrites, in place, the coefficients of a polynomial in the monomials into
its coefficients in the products of vanishing polynomials, and `hqc_icvt` goes back.
Each step divides every block by a two-term polynomial. The conversion keeps the
weighted sum of the coefficients when the powers of a point are replaced by the values
of the products at that point, whatever factors the other bits of an index carry.
-/

namespace Par3

open NovelBasis

/-- The loop `for (i = 1; (1 << i) < n; i++) si = 1 << i`. -/
def chooseFrom (n i si : ℕ) : ℕ :=
  if 2 ^ i < n then chooseFrom n (i + 1) (2 ^ i) else si
termination_by n - 2 ^ i
decreasing_by
  have grows := Nat.pow_lt_pow_right (by decide : 1 < 2) (Nat.lt_succ_self i)
  omega

/-- The largest power of two strictly below `n`, and one for `n` at most two. -/
def hqc_cvt_choose_si (n : ℕ) : ℕ := chooseFrom n 1 1

theorem chooseFrom_spec (n i si : ℕ) (power : ∃ k, si = 2 ^ k ∧ 2 ^ k < n) :
    ∃ k, chooseFrom n i si = 2 ^ k ∧ 2 ^ k < n := by
  fun_induction chooseFrom n i si with
  | case1 i si less ih => exact ih ⟨i, rfl, less⟩
  | case2 => exact power

theorem hqc_cvt_choose_si_spec (n : ℕ) (more : 1 < n) :
    ∃ k, hqc_cvt_choose_si n = 2 ^ k ∧ 2 ^ k < n :=
  chooseFrom_spec n 1 1 ⟨0, rfl, more⟩

/-- Divides the block at `base` by `x^si_h - x^si_l`, from the top coefficient down. -/
def hqc_cvt_div_blk (data : ℕ → Gf64) (base si_h si_l polylen : ℕ) : ℕ → Gf64 :=
  (List.range' si_h (polylen - si_h)).reverse.foldl
    (fun data i => xorInto data (base + (i - (si_h - si_l))) (base + i)) data

/-- Multiplies the block at `base` back, from the bottom coefficient up. -/
def hqc_cvt_idiv_blk (data : ℕ → Gf64) (base si_h si_l polylen : ℕ) : ℕ → Gf64 :=
  (List.range' si_h (polylen - si_h)).foldl
    (fun data i => xorInto data (base + (i - (si_h - si_l))) (base + i)) data

/-- The starts `0, step, 2 * step, ..` below a length. -/
def blockStarts (datalen step : ℕ) : List ℕ :=
  List.range' 0 ((datalen + step - 1) / step) step

def hqc_cvt_rep_in_si (data : ℕ → Gf64) (datalen logsize_blk polyloglen_blk si : ℕ) : ℕ → Gf64 :=
  (List.range' si (polyloglen_blk - si)).reverse.foldl (fun data i =>
    let polylen := 2 ^ (i + logsize_blk + 1)
    let si_h := 2 ^ (i + logsize_blk)
    let si_l := 2 ^ (i + logsize_blk - si)
    (blockStarts datalen polylen).foldl
      (fun data j => hqc_cvt_div_blk data j si_h si_l polylen) data) data

def hqc_cvt_irep_in_si (data : ℕ → Gf64) (datalen logsize_blk polyloglen_blk si : ℕ) : ℕ → Gf64 :=
  (List.range' si (polyloglen_blk - si)).foldl (fun data i =>
    let polylen := 2 ^ (i + logsize_blk + 1)
    let si_h := 2 ^ (i + logsize_blk)
    let si_l := 2 ^ (i + logsize_blk - si)
    (blockStarts datalen polylen).foldl
      (fun data j => hqc_cvt_idiv_blk data j si_h si_l polylen) data) data

theorem choose_si_pos {n : ℕ} (more : ¬ n ≤ 1) : 0 < hqc_cvt_choose_si n := by
  obtain ⟨k, chosen, -⟩ := hqc_cvt_choose_si_spec n (by omega)
  rw [chosen]
  exact Nat.two_pow_pos k

theorem choose_si_lt {n : ℕ} (more : ¬ n ≤ 1) : hqc_cvt_choose_si n < n := by
  obtain ⟨k, chosen, less⟩ := hqc_cvt_choose_si_spec n (by omega)
  rwa [chosen]

def hqc_cvt (data : ℕ → Gf64) (datalen logsize_blk polyloglen_blk : ℕ) : ℕ → Gf64 :=
  if small : polyloglen_blk ≤ 1 then data else
    let si := hqc_cvt_choose_si polyloglen_blk
    have := choose_si_pos small
    have := choose_si_lt small
    let data := hqc_cvt_rep_in_si data datalen logsize_blk polyloglen_blk si
    let data := hqc_cvt data datalen logsize_blk si
    hqc_cvt data datalen (logsize_blk + si) (polyloglen_blk - si)
termination_by polyloglen_blk

def hqc_icvt (data : ℕ → Gf64) (datalen logsize_blk polyloglen_blk : ℕ) : ℕ → Gf64 :=
  if small : polyloglen_blk ≤ 1 then data else
    let si := hqc_cvt_choose_si polyloglen_blk
    have := choose_si_pos small
    have := choose_si_lt small
    let data := hqc_icvt data datalen logsize_blk si
    let data := hqc_icvt data datalen (logsize_blk + si) (polyloglen_blk - si)
    hqc_cvt_irep_in_si data datalen logsize_blk polyloglen_blk si
termination_by polyloglen_blk

/-- Coefficients in the monomials to coefficients in the products. -/
def basisCvt_recursive_v2 (f : ℕ → Gf64) (n : ℕ) : ℕ → Gf64 :=
  if n ≤ 1 then f else hqc_cvt f n 0 (Nat.clog 2 n)

/-- Coefficients in the products to coefficients in the monomials. -/
def ibasisCvt_recursive_v2 (g : ℕ → Gf64) (n : ℕ) : ℕ → Gf64 :=
  if n ≤ 1 then g else hqc_icvt g n 0 (Nat.clog 2 n)

/-! ## One level of divisions -/

/-- The additions of one division, from the top index down. -/
def divPairs (base si_h si_l polylen : ℕ) : List (ℕ × ℕ) :=
  (List.range' si_h (polylen - si_h)).reverse.map fun i => (base + (i - (si_h - si_l)), base + i)

theorem hqc_cvt_div_blk_pairs (data : ℕ → Gf64) (base si_h si_l polylen : ℕ) :
    hqc_cvt_div_blk data base si_h si_l polylen =
      additions data (divPairs base si_h si_l polylen) :=
  foldl_xorInto (fun i => (base + (i - (si_h - si_l)), base + i)) _ data

theorem hqc_cvt_idiv_blk_pairs (data : ℕ → Gf64) (base si_h si_l polylen : ℕ) :
    hqc_cvt_idiv_blk data base si_h si_l polylen =
      additions data (divPairs base si_h si_l polylen).reverse := by
  rw [divPairs, List.map_reverse, List.reverse_reverse]
  exact foldl_xorInto (fun i => (base + (i - (si_h - si_l)), base + i)) _ data

/-- Blocks that tile the data start at the multiples of their length. -/
theorem blockStarts_mul {blocks step : ℕ} (pos : 0 < step) :
    blockStarts (blocks * step) step = (List.range blocks).map (· * step) := by
  have count : (blocks * step + step - 1) / step = blocks := by
    have split : blocks * step + step - 1 = (step - 1) + step * blocks := by
      rw [mul_comm step]
      omega
    rw [split, Nat.add_mul_div_left _ _ pos, Nat.div_eq_of_lt (by omega), zero_add]
  rw [blockStarts, count]
  apply List.ext_getElem
  · simp
  · intro i _ _
    simp [mul_comm]

/-- One level divides every block. -/
theorem level_pairs (data : ℕ → Gf64) {blocks polylen : ℕ} (pos : 0 < polylen)
    (si_h si_l : ℕ) :
    (blockStarts (blocks * polylen) polylen).foldl
        (fun data j => hqc_cvt_div_blk data j si_h si_l polylen) data =
      additions data
        ((List.range blocks).flatMap fun block => divPairs (block * polylen) si_h si_l polylen) := by
  simp only [hqc_cvt_div_blk_pairs]
  rw [foldl_additions, blockStarts_mul pos, List.flatMap_map]

/-- One level multiplies every block back. -/
theorem level_pairs_reverse (data : ℕ → Gf64) {blocks polylen : ℕ} (pos : 0 < polylen)
    (si_h si_l : ℕ) :
    (blockStarts (blocks * polylen) polylen).foldl
        (fun data j => hqc_cvt_idiv_blk data j si_h si_l polylen) data =
      additions data ((List.range blocks).flatMap
        fun block => (divPairs (block * polylen) si_h si_l polylen).reverse) := by
  simp only [hqc_cvt_idiv_blk_pairs]
  rw [foldl_additions, blockStarts_mul pos, List.flatMap_map]

/-- An addition of a division stays inside its block and moves down. -/
theorem mem_divPairs {base si_h si_l polylen : ℕ} (less : si_l < si_h) (le : si_h ≤ polylen)
    {pair : ℕ × ℕ} (member : pair ∈ divPairs base si_h si_l polylen) :
    base ≤ pair.1 ∧ pair.1 < pair.2 ∧ pair.2 < base + polylen := by
  obtain ⟨i, inside, rfl⟩ := List.mem_map.mp member
  have range := List.mem_range'_1.mp (List.mem_reverse.mp inside)
  simp only
  omega

/-! ## What the conversion does to weights -/

/-- The coordinates of an index in a block of `2 * T` groups of `S` words. -/
theorem block_coordinates {S T p : ℕ} (block : ℕ) (pos : 0 < S) (inside : p < T * S * 2) :
    (block * (T * S * 2) + p) / (T * S * 2) = block ∧
      (block * (T * S * 2) + p) % S = p % S ∧
      (block * (T * S * 2) + p) / S % (T * 2) = p / S ∧
      (block * (T * S * 2) + p) / (T * S) % 2 = p / (T * S) ∧
      (block * (T * S * 2) + p) / S % T = p / S % T := by
  have some : 0 < T * S := by omega
  have groups : block * (T * S * 2) + p = S * (block * (T * 2)) + p := by ring
  have halves : block * (T * S * 2) + p = T * S * (block * 2) + p := by ring
  have few : p / S < T * 2 := by
    apply Nat.div_lt_of_lt_mul
    calc p < T * S * 2 := inside
      _ = S * (T * 2) := by ring
  have half : p / (T * S) < 2 := Nat.div_lt_of_lt_mul inside
  refine ⟨?_, ?_, ?_, ?_, ?_⟩
  · rw [mul_comm block, Nat.mul_add_div (by omega), Nat.div_eq_of_lt inside, add_zero]
  · rw [groups, Nat.mul_add_mod]
  · rw [groups, Nat.mul_add_div pos, mul_comm block, Nat.mul_add_mod, Nat.mod_eq_of_lt few]
  · rw [halves, Nat.mul_add_div some, mul_comm block, Nat.mul_add_mod, Nat.mod_eq_of_lt half]
  · have twice : block * (T * 2) = T * (block * 2) := by ring
    rw [groups, Nat.mul_add_div pos, twice, Nat.mul_add_mod]

/-- One level of divisions: bit `i` of the middle of an index turns from a power of the
point into a power of the iterate. -/
theorem weigh_level (other : ℕ → ℕ → Gf64) (y : Gf64) (data : ℕ → Gf64)
    {i log si k blocks : ℕ} (power : si = 2 ^ k) (le : si ≤ i) :
    weigh (blocks * 2 ^ (i + log + 1))
        (fun idx => other (idx / 2 ^ (i + log + 1)) (idx % 2 ^ log) *
          (vanish si y ^ (2 ^ (i - si) * (idx / 2 ^ (i + log) % 2)) *
            y ^ (idx / 2 ^ log % 2 ^ i)))
        ((blockStarts (blocks * 2 ^ (i + log + 1)) (2 ^ (i + log + 1))).foldl
          (fun data j => hqc_cvt_div_blk data j (2 ^ (i + log)) (2 ^ (i + log - si))
            (2 ^ (i + log + 1))) data) =
      weigh (blocks * 2 ^ (i + log + 1))
        (fun idx => other (idx / 2 ^ (i + log + 1)) (idx % 2 ^ log) *
          y ^ (idx / 2 ^ log % 2 ^ (i + 1))) data := by
  have pos : 0 < si := power ▸ Nat.two_pow_pos k
  -- lengths in groups: half a block, the whole block and the short distance
  have halfBlock : 2 ^ (i + log) = 2 ^ i * 2 ^ log := pow_add 2 i log
  have wholeBlock : 2 ^ (i + log + 1) = 2 ^ i * 2 ^ log * 2 := by rw [pow_succ, pow_add]
  have shortBlock : 2 ^ (i + log - si) = 2 ^ (i - si) * 2 ^ log := by
    rw [← pow_add]
    congr 1
    omega
  have twice : 2 ^ (i + 1) = 2 ^ i * 2 := pow_succ 2 i
  have groups : 0 < 2 ^ log := Nat.two_pow_pos log
  have smaller : 2 ^ (i - si) < 2 ^ i := Nat.pow_lt_pow_right (by decide) (by omega)
  have shorter : 2 ^ (i - si) * 2 ^ log < 2 ^ i * 2 ^ log := Nat.mul_lt_mul_of_pos_right smaller groups
  rw [level_pairs data (Nat.two_pow_pos _)]
  simp only [halfBlock, wholeBlock, shortBlock, twice]
  apply weigh_blocks
  · omega
  · omega
  · omega
  · exact le_rfl
  · intro block _ p below
    have whole := block_coordinates block groups (show p < 2 ^ i * 2 ^ log * 2 by omega)
    have few : p / 2 ^ log < 2 ^ i := Nat.div_lt_of_lt_mul (by rwa [mul_comm])
    rw [whole.1, whole.2.1, whole.2.2.1, whole.2.2.2.1, whole.2.2.2.2, Nat.div_eq_of_lt below,
      Nat.mod_eq_of_lt few, mul_zero, pow_zero, one_mul]
  · intro block _ p above below
    obtain ⟨q, rfl⟩ := Nat.exists_eq_add_of_le above
    have inside : q < 2 ^ i * 2 ^ log := by omega
    have whole := block_coordinates block groups below
    have source : q + 2 ^ (i - si) * 2 ^ log < 2 ^ i * 2 ^ log * 2 := by omega
    have lower := block_coordinates block groups source
    have target : 2 ^ i * 2 ^ log + q - (2 ^ i * 2 ^ log - 2 ^ (i - si) * 2 ^ log) =
        q + 2 ^ (i - si) * 2 ^ log := by omega
    have few : q / 2 ^ log < 2 ^ i := Nat.div_lt_of_lt_mul (by rwa [mul_comm])
    have high : (2 ^ i * 2 ^ log + q) / 2 ^ log = 2 ^ i + q / 2 ^ log := by
      rw [mul_comm, Nat.mul_add_div groups]
    have highBit : (2 ^ i * 2 ^ log + q) / (2 ^ i * 2 ^ log) = 1 := by
      rw [Nat.add_div_left _ (by omega), Nat.div_eq_of_lt inside]
    have moved : (q + 2 ^ (i - si) * 2 ^ log) / 2 ^ log = q / 2 ^ log + 2 ^ (i - si) :=
      Nat.add_mul_div_right _ _ groups
    have sameLow : (q + 2 ^ (i - si) * 2 ^ log) % 2 ^ log = (2 ^ i * 2 ^ log + q) % 2 ^ log := by
      rw [Nat.add_mul_mod_self_right, add_comm, Nat.add_mul_mod_self_right]
    have iterate : vanish si y ^ 2 ^ (i - si) = y ^ 2 ^ i + y ^ 2 ^ (i - si) := by
      rw [power, vanish_two_pow_pow, ← power, Nat.add_sub_cancel' le]
    have cancel := CharTwo.add_self_eq_zero (y ^ (2 ^ (i - si) + q / 2 ^ log))
    rw [target, whole.1, whole.2.1, whole.2.2.1, whole.2.2.2.1, whole.2.2.2.2, lower.1, lower.2.1,
      lower.2.2.1, highBit, high, moved, sameLow, Nat.add_mod_left, Nat.mod_eq_of_lt few, mul_one,
      iterate, ← mul_add]
    congr 1
    calc y ^ (2 ^ i + q / 2 ^ log)
        = y ^ (2 ^ i + q / 2 ^ log) +
            (y ^ (2 ^ (i - si) + q / 2 ^ log) + y ^ (2 ^ (i - si) + q / 2 ^ log)) := by
          rw [cancel, add_zero]
      _ = (y ^ 2 ^ i + y ^ 2 ^ (i - si)) * y ^ (q / 2 ^ log) +
            y ^ (q / 2 ^ log + 2 ^ (i - si)) := by ring
  · intro idx less beyond
    omega

/-- The levels from the top one down to `si`: the upper bits of the middle of an index
turn from powers of the point into powers of the iterate. -/
theorem weigh_levels (y : Gf64) {log si k datalen : ℕ} (power : si = 2 ^ k) (levels : ℕ)
    (other : ℕ → ℕ → Gf64) (data : ℕ → Gf64) (tiled : 2 ^ (si + levels + log) ∣ datalen) :
    weigh datalen
        (fun idx => other (idx / 2 ^ (si + levels + log)) (idx % 2 ^ log) *
          (vanish si y ^ (idx / 2 ^ (si + log) % 2 ^ levels) * y ^ (idx / 2 ^ log % 2 ^ si)))
        ((List.range' si levels).reverse.foldl (fun data i =>
          (blockStarts datalen (2 ^ (i + log + 1))).foldl
            (fun data j => hqc_cvt_div_blk data j (2 ^ (i + log)) (2 ^ (i + log - si))
              (2 ^ (i + log + 1))) data) data) =
      weigh datalen
        (fun idx => other (idx / 2 ^ (si + levels + log)) (idx % 2 ^ log) *
          y ^ (idx / 2 ^ log % 2 ^ (si + levels))) data := by
  induction levels generalizing other data with
  | zero =>
    apply weigh_congr
    · intro idx _
      rw [pow_zero, Nat.mod_one, pow_zero, one_mul, add_zero]
    · intro idx _
      rfl
  | succ levels ih =>
    have size : si + (levels + 1) + log = si + levels + log + 1 := by omega
    have exponent : si + levels - si = levels := by omega
    rw [size] at tiled
    obtain ⟨blocks, rfl⟩ : ∃ blocks, datalen = blocks * 2 ^ (si + levels + log + 1) :=
      exists_eq_mul_left_of_dvd tiled
    rw [List.range'_1_concat, List.reverse_append, List.reverse_singleton, List.singleton_append,
      List.foldl_cons]
    -- the factor of the top bit goes with the other bits through the levels below
    let carried := fun upper low => other (upper / 2) low * vanish si y ^ (2 ^ levels * (upper % 2))
    have below := ih carried
      ((blockStarts (blocks * 2 ^ (si + levels + log + 1)) (2 ^ (si + levels + log + 1))).foldl
        (fun data j => hqc_cvt_div_blk data j (2 ^ (si + levels + log))
          (2 ^ (si + levels + log - si)) (2 ^ (si + levels + log + 1))) data)
      (Dvd.dvd.mul_left (pow_dvd_pow 2 (Nat.le_succ _)) blocks)
    have top := @weigh_level other y data (si + levels) log si k blocks power
      (Nat.le_add_right si levels)
    rw [exponent] at top
    calc _ = _ := weigh_congr ?after (fun _ _ => rfl)
      _ = _ := below
      _ = _ := weigh_congr ?before (fun _ _ => rfl)
      _ = _ := top
      _ = _ := weigh_congr ?start (fun _ _ => rfl)
    case after =>
      intro idx _
      have upper : idx / 2 ^ (si + log) / 2 ^ levels = idx / 2 ^ (si + levels + log) := by
        rw [Nat.div_div_eq_div_mul, ← pow_add]
        congr 2
        omega
      have bits : idx / 2 ^ (si + log) % 2 ^ (levels + 1) =
          idx / 2 ^ (si + log) % 2 ^ levels +
            2 ^ levels * (idx / 2 ^ (si + levels + log) % 2) := by
        rw [Nat.mod_pow_succ, upper]
      simp only [carried]
      rw [size, pow_succ, ← Nat.div_div_eq_div_mul, bits, pow_add]
      ring
    case before =>
      intro idx _
      simp only [carried]
      rw [pow_succ 2 (si + levels + log), ← Nat.div_div_eq_div_mul]
      ring
    case start =>
      intro idx _
      rw [size, add_assoc si levels 1]

theorem weigh_rep_in_si (y : Gf64) {log si k bits datalen : ℕ} (power : si = 2 ^ k) (le : si ≤ bits)
    (other : ℕ → ℕ → Gf64) (data : ℕ → Gf64) (tiled : 2 ^ (bits + log) ∣ datalen) :
    weigh datalen
        (fun idx => other (idx / 2 ^ (bits + log)) (idx % 2 ^ log) *
          (vanish si y ^ (idx / 2 ^ (si + log) % 2 ^ (bits - si)) * y ^ (idx / 2 ^ log % 2 ^ si)))
        (hqc_cvt_rep_in_si data datalen log bits si) =
      weigh datalen
        (fun idx => other (idx / 2 ^ (bits + log)) (idx % 2 ^ log) *
          y ^ (idx / 2 ^ log % 2 ^ bits)) data := by
  obtain ⟨levels, rfl⟩ := Nat.exists_eq_add_of_le le
  have levels := weigh_levels y power levels other data tiled
  rw [hqc_cvt_rep_in_si, Nat.add_sub_cancel_left]
  exact levels

/-- The conversion turns the powers of a point into the products at the point. -/
theorem weigh_hqc_cvt (y : Gf64) (datalen log bits : ℕ) (other : ℕ → ℕ → Gf64) (data : ℕ → Gf64)
    (tiled : 2 ^ (bits + log) ∣ datalen) :
    weigh datalen
        (fun idx => other (idx / 2 ^ (bits + log)) (idx % 2 ^ log) *
          novel bits (idx / 2 ^ log % 2 ^ bits) y) (hqc_cvt data datalen log bits) =
      weigh datalen
        (fun idx => other (idx / 2 ^ (bits + log)) (idx % 2 ^ log) *
          y ^ (idx / 2 ^ log % 2 ^ bits)) data := by
  fun_induction hqc_cvt data datalen log bits generalizing y other with
  | case1 data log bits small =>
    apply weigh_congr
    · intro idx _
      congr 1
      have cases : bits = 0 ∨ bits = 1 := by omega
      rcases cases with rfl | rfl
      · rw [pow_zero, Nat.mod_one, pow_zero, novel_zero]
      · have bit : idx / 2 ^ log % 2 ^ 1 = 0 ∨ idx / 2 ^ log % 2 ^ 1 = 1 := by omega
        rcases bit with zero | one
        · rw [zero]
          simp [novel]
        · rw [one]
          simp [novel]
    · intro idx _
      rfl
  | case2 data log bits small si pos less represented converted low _ high =>
    obtain ⟨k, power, -⟩ := hqc_cvt_choose_si_spec bits (by omega)
    have total : si + (bits - si) = bits := Nat.add_sub_cancel' less.le
    have around : bits - si + (log + si) = bits + log := by omega
    have order : log + si = si + log := add_comm log si
    have divided (idx : ℕ) :
        idx / 2 ^ (bits + log) = idx / 2 ^ (si + log) / 2 ^ (bits - si) := by
      rw [Nat.div_div_eq_div_mul, ← pow_add]
      congr 2
      omega
    -- what a pass leaves alone is a factor of its weights
    let rest := fun upper lower => other upper (lower % 2 ^ log) * novel si (lower / 2 ^ log) y
    let carried := fun upper lower =>
      other (upper / 2 ^ (bits - si)) lower * vanish si y ^ (upper % 2 ^ (bits - si))
    calc _ = _ := weigh_congr ?last (fun _ _ => rfl)
      _ = _ := high (vanish si y) rest (by rwa [around])
      _ = _ := weigh_congr ?middle (fun _ _ => rfl)
      _ = _ := low y carried ((pow_dvd_pow 2 (by omega)).trans tiled)
      _ = _ := weigh_congr ?first (fun _ _ => rfl)
      _ = _ := weigh_rep_in_si y power less.le other data tiled
    case last =>
      intro idx _
      have lowBits : idx % 2 ^ (si + log) / 2 ^ log = idx / 2 ^ log % 2 ^ si := by
        rw [pow_add, mul_comm, Nat.mod_mul_right_div_self]
      have lowest : idx % 2 ^ (si + log) % 2 ^ log = idx % 2 ^ log :=
        Nat.mod_mod_of_dvd idx (pow_dvd_pow 2 (Nat.le_add_left log si))
      have product := novel_add si (bits - si) (idx / 2 ^ log % 2 ^ bits) y
      have inLow : idx / 2 ^ log % 2 ^ bits % 2 ^ si = idx / 2 ^ log % 2 ^ si :=
        Nat.mod_mod_of_dvd _ (pow_dvd_pow 2 less.le)
      have inHigh := Nat.mod_mul_right_div_self (idx / 2 ^ log) (2 ^ si) (2 ^ (bits - si))
      rw [← pow_add, total, Nat.div_div_eq_div_mul, ← pow_add, order] at inHigh
      rw [total, inLow, inHigh] at product
      simp only [rest]
      rw [around, order, lowBits, lowest, product]
      ring
    case middle =>
      intro idx _
      have lowBits : idx % 2 ^ (si + log) / 2 ^ log = idx / 2 ^ log % 2 ^ si := by
        rw [pow_add, mul_comm, Nat.mod_mul_right_div_self]
      have lowest : idx % 2 ^ (si + log) % 2 ^ log = idx % 2 ^ log :=
        Nat.mod_mod_of_dvd idx (pow_dvd_pow 2 (Nat.le_add_left log si))
      simp only [rest, carried]
      rw [around, order, lowBits, lowest, divided]
      ring
    case first =>
      intro idx _
      simp only [carried]
      rw [divided]
      exact mul_assoc _ _ _

/-! ## Back to the monomials -/

/-- One level of multiplications after which the divisions give the data again. -/
theorem level_redo (data : ℕ → Gf64) {blocks polylen si_h si_l : ℕ} (less : si_l < si_h)
    (le : si_h ≤ polylen) :
    (blockStarts (blocks * polylen) polylen).foldl
        (fun data j => hqc_cvt_div_blk data j si_h si_l polylen)
        ((blockStarts (blocks * polylen) polylen).foldl
          (fun data j => hqc_cvt_idiv_blk data j si_h si_l polylen) data) = data := by
  have pos : 0 < polylen := by omega
  have undo := flatMap_reverse CharTwo.add_self_eq_zero (List.range blocks)
    (fun block => (divPairs (block * polylen) si_h si_l polylen).reverse) data ?proper ?apart
  · simp only [List.reverse_reverse] at undo
    rw [level_pairs_reverse data pos, level_pairs _ pos]
    exact undo
  case proper =>
    intro block _ pair member
    have bounds := mem_divPairs less le (List.mem_reverse.mp member)
    omega
  case apart =>
    apply List.Pairwise.imp _ List.pairwise_lt_range
    intro a b before first inFirst second inSecond
    have left := mem_divPairs less le (List.mem_reverse.mp inFirst)
    have right := mem_divPairs less le (List.mem_reverse.mp inSecond)
    have separate : a * polylen + polylen ≤ b * polylen := by
      calc a * polylen + polylen = (a + 1) * polylen := by ring
        _ ≤ b * polylen := Nat.mul_le_mul_right _ before
    omega

/-- The divisions of all levels give the data again. -/
theorem rep_irep (data : ℕ → Gf64) {log si bits datalen : ℕ} (pos : 0 < si)
    (tiled : 2 ^ (bits + log) ∣ datalen) :
    hqc_cvt_rep_in_si (hqc_cvt_irep_in_si data datalen log bits si) datalen log bits si = data := by
  rw [hqc_cvt_rep_in_si, hqc_cvt_irep_in_si]
  have below : ∀ i ∈ List.range' si (bits - si), si ≤ i ∧ i < bits := by
    intro i member
    have range := List.mem_range'_1.mp member
    omega
  generalize List.range' si (bits - si) = levels at below
  induction levels generalizing data with
  | nil => rfl
  | cons i levels ih =>
    obtain ⟨low, high⟩ := below i (List.mem_cons_self ..)
    obtain ⟨blocks, rfl⟩ : ∃ blocks, datalen = blocks * 2 ^ (i + log + 1) :=
      exists_eq_mul_left_of_dvd ((pow_dvd_pow 2 (by omega)).trans tiled)
    rw [List.foldl_cons, List.reverse_cons, List.foldl_append,
      ih _ fun later member => below later (List.mem_cons_of_mem _ member),
      List.foldl_cons, List.foldl_nil]
    exact level_redo data (Nat.pow_lt_pow_right (by omega) (by omega))
      (Nat.pow_le_pow_right (by omega) (by omega))

/-- The inverse conversion turns the products at a point into its powers. -/
theorem weigh_hqc_icvt (y : Gf64) (datalen log bits : ℕ) (other : ℕ → ℕ → Gf64) (data : ℕ → Gf64)
    (tiled : 2 ^ (bits + log) ∣ datalen) :
    weigh datalen
        (fun idx => other (idx / 2 ^ (bits + log)) (idx % 2 ^ log) *
          y ^ (idx / 2 ^ log % 2 ^ bits)) (hqc_icvt data datalen log bits) =
      weigh datalen
        (fun idx => other (idx / 2 ^ (bits + log)) (idx % 2 ^ log) *
          novel bits (idx / 2 ^ log % 2 ^ bits) y) data := by
  fun_induction hqc_icvt data datalen log bits generalizing y other with
  | case1 data log bits small =>
    have converted := weigh_hqc_cvt y datalen log bits other data tiled
    rw [hqc_cvt, dif_pos small] at converted
    exact converted.symm
  | case2 data log bits small si pos less lowered raised low _ high =>
    obtain ⟨k, power, -⟩ := hqc_cvt_choose_si_spec bits (by omega)
    have total : si + (bits - si) = bits := Nat.add_sub_cancel' less.le
    have around : bits - si + (log + si) = bits + log := by omega
    have order : log + si = si + log := add_comm log si
    have divided (idx : ℕ) :
        idx / 2 ^ (bits + log) = idx / 2 ^ (si + log) / 2 ^ (bits - si) := by
      rw [Nat.div_div_eq_div_mul, ← pow_add]
      congr 2
      omega
    have lowBits (idx : ℕ) : idx % 2 ^ (si + log) / 2 ^ log = idx / 2 ^ log % 2 ^ si := by
      rw [pow_add, mul_comm, Nat.mod_mul_right_div_self]
    have lowest (idx : ℕ) : idx % 2 ^ (si + log) % 2 ^ log = idx % 2 ^ log :=
      Nat.mod_mod_of_dvd idx (pow_dvd_pow 2 (Nat.le_add_left log si))
    -- what a pass leaves alone is a factor of its weights
    let rest := fun upper lower => other upper (lower % 2 ^ log) * y ^ (lower / 2 ^ log)
    let carried := fun upper lower =>
      other (upper / 2 ^ (bits - si)) lower * novel (bits - si) (upper % 2 ^ (bits - si)) (vanish si y)
    have divisions := weigh_rep_in_si y power less.le other
      (hqc_cvt_irep_in_si raised datalen log bits si) tiled
    rw [rep_irep raised pos tiled] at divisions
    calc _ = _ := divisions.symm
      _ = _ := weigh_congr ?first (fun _ _ => rfl)
      _ = _ := high (vanish si y) rest (by rwa [around])
      _ = _ := weigh_congr ?middle (fun _ _ => rfl)
      _ = _ := low y carried ((pow_dvd_pow 2 (by omega)).trans tiled)
      _ = _ := weigh_congr ?last (fun _ _ => rfl)
    case first =>
      intro idx _
      simp only [rest]
      rw [around, order, lowBits, lowest]
      ring
    case middle =>
      intro idx _
      simp only [rest, carried]
      rw [around, order, lowBits, lowest, divided]
      ring
    case last =>
      intro idx _
      have product := novel_add si (bits - si) (idx / 2 ^ log % 2 ^ bits) y
      have inLow : idx / 2 ^ log % 2 ^ bits % 2 ^ si = idx / 2 ^ log % 2 ^ si :=
        Nat.mod_mod_of_dvd _ (pow_dvd_pow 2 less.le)
      have inHigh := Nat.mod_mul_right_div_self (idx / 2 ^ log) (2 ^ si) (2 ^ (bits - si))
      rw [← pow_add, total, Nat.div_div_eq_div_mul, ← pow_add, order] at inHigh
      rw [total, inLow, inHigh] at product
      simp only [carried]
      rw [product, divided]
      ring

end Par3
