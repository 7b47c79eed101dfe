import Mathlib.Data.Nat.Log
import Par3.BasisConversion
import Par3.Foundations.LinearProbing

/-!
# The additive transform

The transform takes coefficients in the products of vanishing polynomials to values, by butterflies
over the cosets of ever smaller subspaces. The factor of a butterfly is the value of a vanishing
polynomial at the shift of its coset, which is looked up: the index of the shift in the table of the
points, moved down by the level, is the index of the value.
-/

namespace Par3

open NovelBasis

/-! ## The table of the points -/

def GF64_HQC_MAX_LM : ℕ := 20

def GF64_HQC_MAX_LM_N : ℕ := 2 ^ 20

def GF64_CANTOR_BASIS : List Gf64 := [
  ⟨0x0000000000000001⟩, ⟨0x19c9369f278adc02⟩, ⟨0xa181e7d66f5ff794⟩, ⟨0x5db84357ce785d08⟩,
  ⟨0xb973d466f5c9d0ca⟩, ⟨0x521ac889831a075e⟩, ⟨0x033ce8beddc8a656⟩, ⟨0xb5846c4e07b91010⟩,
  ⟨0x4087b8cbb37a32ec⟩, ⟨0x00d0d3888c0ae17c⟩, ⟨0xafd5ac70237f2222⟩, ⟨0xe3f5af99cc3aaaf8⟩,
  ⟨0x5a1db3b16a0b58b8⟩, ⟨0x09947c54fe7ee248⟩, ⟨0x0e8eaf0e0068f544⟩, ⟨0xa2a113500b4b4f5a⟩,
  ⟨0xe96f9805d6ce0bb0⟩, ⟨0x53496f8b5c9edd4c⟩, ⟨0xad325cb6f4ac2a9e⟩, ⟨0x4a8dcf8bd7ede826⟩]

def cantor (k : ℕ) : Gf64 := GF64_CANTOR_BASIS.getD k 0

def compute_v_j (j : ℕ) : Gf64 :=
  (List.range GF64_HQC_MAX_LM).foldl (fun v k => if (j >>> k) &&& 1 ≠ 0 then v + cantor k else v) 0

/-- An index of the values of a table. -/
structure VIndex where
  log2size : ℕ
  tab : ℕ → Option ℕ

/-- A table of points, with an index when there was memory for one. -/
structure VTable where
  values : ℕ → Gf64
  vindex : Option VIndex

/-- The slot at which the search for a value begins. -/
def vindexHash (a : Gf64) (log2size : ℕ) : ℕ :=
  ((a.bits * 0x9E3779B97F4A7C15) >>> (64 - log2size)).toNat

def hqc_vindex_build (values : ℕ → Gf64) (n : ℕ) : Option VIndex :=
  let log2size := max 1 (Nat.clog 2 (2 * n))
  if log2size > 30 then none
  else some
    { log2size := log2size
      tab := (List.range' 1 (n - 1)).foldl (fun tab j =>
        if values j = 0 then tab
        else LinearProbing.insert tab (2 ^ log2size) (vindexHash (values j) log2size) j)
        fun _ => none }

def get_or_build_v_table (n : ℕ) (registered : Bool) : VTable where
  values := compute_v_j
  vindex := if registered then hqc_vindex_build compute_v_j n else none

def hqc_vindex_lookup (vindex : VIndex) (values : ℕ → Gf64) (a : Gf64) : Option ℕ :=
  LinearProbing.find vindex.tab (2 ^ vindex.log2size) (fun j => values j = a)
    (2 ^ vindex.log2size) (vindexHash a vindex.log2size)

def compute_index_for (a : Gf64) (v_table : VTable) (n_table : ℕ) : Option ℕ :=
  if a = 0 then some 0
  else match v_table.vindex with
    | some vindex => hqc_vindex_lookup vindex v_table.values a
    | none => (List.range' 1 (n_table - 1)).find? fun j => v_table.values j = a

def si_eval (i : ℕ) (a : Gf64) (v_table : VTable) (n_table : ℕ) : Gf64 :=
  if a = 0 then 0
  else match compute_index_for a v_table n_table with
    | none => 0
    | some idx => if idx >>> i = 0 then 0 else v_table.values (idx >>> i)

/-! ## Butterflies -/

/-- A loop over pairs half a block apart. -/
def combineHalves (combine : Gf64 → Gf64 → Gf64 × Gf64) (base half : ℕ) (f : ℕ → Gf64) : ℕ → Gf64 :=
  (List.range half).foldl (fun f j =>
    let pair := combine (f (base + j)) (f (base + j + half))
    Function.update (Function.update f (base + j) pair.1) (base + j + half) pair.2) f

/-- Blocks of at least so many pairs are combined in lanes. -/
def GF64_HQC_BUTTERFLY_AVX512_LANES : ℕ := 8

/-- A pair of the forward loop. The lanes save the second product. -/
def forwardPair (avx512 : Bool) (half : ℕ) (s_a fl fh : Gf64) : Gf64 × Gf64 :=
  if avx512 ∧ half ≥ GF64_HQC_BUTTERFLY_AVX512_LANES then
    let prod := fh * s_a
    (fl + prod, fl + prod + fh)
  else (fl + s_a * fh, fl + (s_a + 1) * fh)

/-- A pair of the inverse loop. -/
def inversePair (avx512 : Bool) (half : ℕ) (s_a fl_new fh_new : Gf64) : Gf64 × Gf64 :=
  let fh := fl_new + fh_new
  if avx512 ∧ half ≥ GF64_HQC_BUTTERFLY_AVX512_LANES then (fl_new + fh * s_a, fh)
  else (fl_new + s_a * fh, fh)

/-- `butterfly_fwd`, or `butterfly_fwd_avx512` -/
def butterfly_fwd (avx512 : Bool) : ℕ → (ℕ → Gf64) → ℕ → ℕ → ℕ → Gf64 → VTable → ℕ → Gf64
  | 0, f, _, _, _, _, _ => f
  | logn + 1, f, base, n, n_table, a, v_table =>
    if n = 2 then
      let fl := f base
      let fh := f (base + 1)
      Function.update (Function.update f base (fl + a * fh)) (base + 1) (fl + (a + 1) * fh)
    else
      let half := n / 2
      let s_a := si_eval logn a v_table n_table
      let f := combineHalves (forwardPair avx512 half s_a) base half f
      let f := butterfly_fwd avx512 logn f base half n_table a v_table
      butterfly_fwd avx512 logn f (base + half) half n_table (a + v_table.values (2 ^ logn)) v_table

/-- `butterfly_inv`, or `butterfly_inv_avx512` -/
def butterfly_inv (avx512 : Bool) : ℕ → (ℕ → Gf64) → ℕ → ℕ → ℕ → Gf64 → VTable → ℕ → Gf64
  | 0, f, _, _, _, _, _ => f
  | logn + 1, f, base, n, n_table, a, v_table =>
    if n = 2 then
      let fh := f base + f (base + 1)
      let fl := f base + a * fh
      Function.update (Function.update f base fl) (base + 1) fh
    else
      let half := n / 2
      let f := butterfly_inv avx512 logn f base half n_table a v_table
      let f := butterfly_inv avx512 logn f (base + half) half n_table
        (a + v_table.values (2 ^ logn)) v_table
      combineHalves (inversePair avx512 half (si_eval logn a v_table n_table)) base half f

/-! ## The transform -/

def gf64_addfft64_fwd_recursive_scratch (arr : ℕ → Gf64) (n : ℕ) (avx512 registered : Bool) :
    ℕ → Gf64 :=
  if n ≤ 1 then arr
  else
    let logn := Nat.clog 2 n
    let a := cantor (logn - 1)
    butterfly_fwd avx512 logn (basisCvt_recursive_v2 arr n) 0 n n a
      (get_or_build_v_table n registered)

def gf64_addfft64_inv_recursive_scratch (arr : ℕ → Gf64) (n : ℕ) (avx512 registered : Bool) :
    ℕ → Gf64 :=
  if n ≤ 1 then arr
  else
    let logn := Nat.clog 2 n
    let a := cantor (logn - 1)
    ibasisCvt_recursive_v2
      (butterfly_inv avx512 logn arr 0 n n a (get_or_build_v_table n registered)) n

def gf64_addfft64_poly_mul_recursive_scratch (a b : List Gf64) (out_len : ℕ)
    (avx512 registered : Bool) : List Gf64 :=
  if a.length = 0 ∨ b.length = 0 ∨ out_len = 0 then List.replicate out_len 0
  else
    let full_len := max (a.length + b.length - 1) out_len
    let n := 2 ^ Nat.clog 2 full_len
    let pa := gf64_addfft64_fwd_recursive_scratch (fun i => a.getD i 0) n avx512 registered
    let pb := gf64_addfft64_fwd_recursive_scratch (fun i => b.getD i 0) n avx512 registered
    let pa := gf64_addfft64_inv_recursive_scratch (fun i => pa i * pb i) n avx512 registered
    let copy_n := min full_len out_len
    (List.range copy_n).map pa ++ List.replicate (out_len - copy_n) 0

/-! ## Points -/

theorem cantorBasis : CantorBasis cantor 20 where
  first := rfl
  next := by
    have all : ∀ i < 19, cantor (i + 1) ^ 2 + cantor (i + 1) = cantor i := by decide +kernel
    intro i inside
    exact all i (by omega)

theorem compute_v_j_eq (j : ℕ) : compute_v_j j = point cantor 20 j := by
  rw [compute_v_j, point, GF64_HQC_MAX_LM]
  generalize 20 = count
  induction count with
  | zero => rfl
  | succ count ih =>
    rw [List.range_succ, List.foldl_append, ih, BinaryField.bitSum_succ,
      List.foldl_cons, List.foldl_nil, Nat.testBit]
    rw [Nat.and_comm 1]
    rcases Nat.mod_two_eq_zero_or_one (j >>> count) with even | odd
    · simp [even]
    · simp [odd]

theorem point_xor (basis : ℕ → Gf64) (count j k : ℕ) :
    point basis count (j ^^^ k) = point basis count j + point basis count k := by
  rw [point, point, point, ← BinaryField.bitSum_xor CharTwo.add_self_eq_zero]
  refine BinaryField.bitSum_congr _ _ fun i _ => ?_
  exact Nat.testBit_xor j k i

theorem point_zero (basis : ℕ → Gf64) (count : ℕ) : point basis count 0 = 0 := by
  rw [point]
  refine Finset.sum_eq_zero fun i _ => ?_
  simp

theorem point_two_pow (basis : ℕ → Gf64) {count k : ℕ} (inside : k < count) :
    point basis count (2 ^ k) = basis k := by
  rw [point, BinaryField.bitSum, Finset.sum_eq_single_of_mem k (Finset.mem_range.mpr inside)]
  · simp
  · intro i _ other
    rw [Nat.testBit_two_pow_of_ne (Ne.symm other)]
    rfl

/-- Only the bits of an index that are there count. -/
theorem point_extend (basis : ℕ → Gf64) {few count j : ℕ} (le : few ≤ count) (small : j < 2 ^ few) :
    point basis count j = point basis few j := by
  obtain ⟨more, rfl⟩ := Nat.exists_eq_add_of_le le
  have beyond : ∀ i ∈ Finset.range more,
      (if j.testBit (few + i) then basis (few + i) else 0) = 0 := by
    intro i _
    rw [Nat.testBit_eq_false_of_lt (small.trans_le (Nat.pow_le_pow_right (by omega) (by omega)))]
    rfl
  rw [point, point, BinaryField.bitSum, BinaryField.bitSum, Finset.sum_range_add,
    Finset.sum_eq_zero beyond, add_zero]

theorem v_half_add {logn j : ℕ} (inside : logn < 20) (small : j < 2 ^ logn) :
    compute_v_j (2 ^ logn) + compute_v_j j = compute_v_j (2 ^ logn + j) := by
  have disjoint : 2 ^ logn ^^^ j = 2 ^ logn + j := by
    refine Nat.eq_of_testBit_eq fun i => ?_
    rw [Nat.testBit_xor, Nat.testBit_two_pow]
    rcases Nat.lt_trichotomy i logn with low | rfl | high
    · rw [Nat.testBit_two_pow_add_gt low, decide_eq_false (by omega), Bool.false_xor]
    · rw [Nat.testBit_two_pow_add_eq, decide_eq_true rfl, Bool.true_xor]
    · have power : 2 ^ (logn + 1) ≤ 2 ^ i := Nat.pow_le_pow_right (by omega) high
      rw [Nat.testBit_eq_false_of_lt (by omega), Nat.testBit_eq_false_of_lt (by omega),
        decide_eq_false (by omega)]
      rfl
  rw [compute_v_j_eq, compute_v_j_eq, compute_v_j_eq, ← disjoint, point_xor]

/-- Vanishing polynomials move the index of a point. -/
theorem vanish_v (i : ℕ) {k : ℕ} (inside : k < 2 ^ 20) :
    vanish i (compute_v_j k) = compute_v_j (k >>> i) := by
  rw [compute_v_j_eq, compute_v_j_eq, vanish_point cantorBasis inside]

/-- Distinct indices have distinct points. -/
theorem v_injective {j k : ℕ} (left : j < 2 ^ 20) (right : k < 2 ^ 20)
    (same : compute_v_j j = compute_v_j k) : j = k := by
  by_contra different
  have apart : j ^^^ k ≠ 0 := fun zero => different (Nat.xor_eq_zero_iff.mp zero)
  have small : j ^^^ k < 2 ^ 20 := Nat.xor_lt_two_pow left right
  have zero : compute_v_j (j ^^^ k) = 0 := by
    rw [compute_v_j_eq, point_xor, ← compute_v_j_eq, ← compute_v_j_eq, same,
      CharTwo.add_self_eq_zero]
  have top : (j ^^^ k) >>> (j ^^^ k).log2 = 1 := by
    have low := Nat.log2_self_le apart
    have high := @Nat.lt_log2_self (j ^^^ k)
    rw [Nat.shiftRight_eq_div_pow]
    refine Nat.div_eq_of_lt_le (by omega) ?_
    rw [Nat.pow_succ] at high
    omega
  have image := vanish_v (j ^^^ k).log2 small
  rw [zero, map_zero, top] at image
  exact absurd image (by decide)

/-! ## The index -/

theorem vindexHash_lt (a : Gf64) (log2size : ℕ) (le : log2size ≤ 64) :
    vindexHash a log2size < 2 ^ log2size := by
  rw [vindexHash, BitVec.toNat_ushiftRight, Nat.shiftRight_eq_div_pow]
  refine Nat.div_lt_of_lt_mul ?_
  rw [← pow_add, Nat.sub_add_cancel le]
  exact BitVec.isLt _

/-- The index holds indices of the table, and all that are wanted. -/
theorem build_reached (values : ℕ → Gf64) (log2size : ℕ) (le : log2size ≤ 64) (count : ℕ)
    (room : count < 2 ^ log2size) :
    let tab := (List.range' 1 count).foldl (fun tab j =>
        if values j = 0 then tab
        else LinearProbing.insert tab (2 ^ log2size) (vindexHash (values j) log2size) j)
        fun _ => none
    (∀ j, 1 ≤ j → j ≤ count → values j ≠ 0 →
        LinearProbing.Reached tab (2 ^ log2size) (vindexHash (values j) log2size) j) ∧
      (∀ position j, tab position = some j → j ≤ count) ∧
      ((Finset.range (2 ^ log2size)).filter fun position => (tab position).isSome).card ≤ count := by
  induction count with
  | zero =>
    refine ⟨fun j low high _ => by omega, fun position j stored => ?_, ?_⟩
    · cases stored
    · simp
  | succ count ih =>
    obtain ⟨reached, entries, few⟩ := ih (by omega)
    rw [List.range'_1_concat, List.foldl_append, List.foldl_cons, List.foldl_nil]
    generalize (List.range' 1 count).foldl _ _ = tab at reached entries few ⊢
    have last : 1 + count = count + 1 := Nat.add_comm 1 count
    rw [last]
    by_cases zero : values (count + 1) = 0
    · simp only [zero, if_true]
      refine ⟨fun j low high nonzero => reached j low ?_ nonzero, fun position j stored => ?_, ?_⟩
      · rcases Nat.lt_or_ge count j with beyond | within
        · have here : j = count + 1 := by omega
          rw [here] at nonzero
          exact absurd zero nonzero
        · exact within
      · exact Nat.le_succ_of_le (entries position j stored)
      · exact Nat.le_succ_of_le few
    · simp only [zero, if_false]
      have inside := vindexHash_lt (values (count + 1)) log2size le
      obtain ⟨position, within, empty⟩ := LinearProbing.exists_empty count (by omega) few
      refine ⟨fun j low high nonzero => ?_, fun place j stored => ?_, ?_⟩
      · rcases Nat.lt_or_ge count j with beyond | before
        · have here : j = count + 1 := by omega
          rw [here]
          exact LinearProbing.insert_reached inside (count + 1) within empty
        · exact (reached j low before nonzero).insert inside (count + 1) within empty
      · rw [LinearProbing.insert, Function.update_apply] at stored
        split at stored
        · cases stored
          exact le_refl _
        · exact Nat.le_succ_of_le (entries place j stored)
      · exact (LinearProbing.card_insert _ _).trans (Nat.succ_le_succ few)

/-- With an index or without one, the index of a point of the table is found. -/
theorem compute_index_for_v {n k : ℕ} (inside : k < n) (most : n ≤ 2 ^ 20) (registered : Bool)
    (nonzero : compute_v_j k ≠ 0) :
    compute_index_for (compute_v_j k) (get_or_build_v_table n registered) n = some k := by
  have pos : 1 ≤ k := by
    refine Nat.one_le_iff_ne_zero.mpr fun zero => nonzero ?_
    rw [zero]
    decide
  -- points are distinct, so that what is found is the index
  have found (result : Option ℕ) (present : result.isSome)
      (right : ∀ j, result = some j → j < n ∧ compute_v_j j = compute_v_j k) : result = some k := by
    obtain ⟨j, here⟩ := Option.isSome_iff_exists.mp present
    obtain ⟨small, same⟩ := right j here
    rw [here, v_injective (by omega) (by omega) same]
  rw [compute_index_for, if_neg nonzero, get_or_build_v_table]
  cases registered with
  | false =>
    simp only [Bool.false_eq_true, if_false]
    refine found _ ?_ fun j here => ?_
    · rw [List.find?_isSome]
      exact ⟨k, List.mem_range'_1.mpr (by omega), decide_eq_true rfl⟩
    · have member := List.mem_range'_1.mp (List.mem_of_find?_eq_some here)
      have accepted := List.find?_some here
      exact ⟨by omega, of_decide_eq_true accepted⟩
  | true =>
    have large : 2 * n ≤ 2 ^ max 1 (Nat.clog 2 (2 * n)) :=
      (Nat.le_pow_clog (by omega) _).trans (Nat.pow_le_pow_right (by omega) (le_max_right _ _))
    have few : max 1 (Nat.clog 2 (2 * n)) ≤ 21 := by
      refine max_le (by omega) (Nat.clog_le_of_le_pow ?_)
      rw [pow_succ, Nat.mul_comm]
      exact Nat.mul_le_mul_right 2 most
    obtain ⟨reached, entries, -⟩ := build_reached compute_v_j (max 1 (Nat.clog 2 (2 * n)))
      (by omega) (n - 1) (by omega)
    simp only [hqc_vindex_build, if_true, if_neg (by omega : ¬max 1 (Nat.clog 2 (2 * n)) > 30)]
    refine found _ ?_ fun j here => ?_
    · exact (reached k pos (by omega) nonzero).find (vindexHash_lt _ _ (by omega)) _
        (decide_eq_true rfl)
    · obtain ⟨accepted, position, stored⟩ := LinearProbing.find_sound _ _ here
      have low := entries position j stored
      exact ⟨by omega, of_decide_eq_true accepted⟩

theorem si_eval_v (i : ℕ) {n k : ℕ} (inside : k < n) (most : n ≤ 2 ^ 20) (registered : Bool) :
    si_eval i (compute_v_j k) (get_or_build_v_table n registered) n = vanish i (compute_v_j k) := by
  by_cases zero : compute_v_j k = 0
  · rw [si_eval, if_pos zero, zero, map_zero]
  · rw [si_eval, if_neg zero, compute_index_for_v inside most registered zero, vanish_v i (by omega)]
    simp only
    split
    case isTrue none =>
      rw [none, compute_v_j_eq, point_zero]
    case isFalse => rfl

end Par3
