import Par3.TransformContract
import Par3.Words

/-!
# The basis conversions are inverse to each other

Both conversions keep the value of a polynomial at every point, and the field has enough points
to tell polynomials apart. So going to the products and back gives the coefficients again, and
since there are only so many vectors, so does going back first. A length that is no power of two
leaves out blocks in which there is nothing but zeros.
-/

namespace Par3

open NovelBasis BinaryField

/-! ## Powers of two -/

instance : Finite Gf64 :=
  Finite.of_injective (fun a : Gf64 => a.bits.toFin) fun a b same => by
    have bits : a.bits = b.bits := BitVec.eq_of_toFin_eq same
    exact Word.ext bits

/-- A polynomial with fewer coefficients than the field has elements is known from its values. -/
theorem coefficients_of_values {n : ℕ} (fits : n ≤ 2 ^ 64) (first second : ℕ → Gf64)
    (same : ∀ y : Gf64, weigh n (fun k => y ^ k) first = weigh n (fun k => y ^ k) second) :
    ∀ k < n, first k = second k := by
  refine coefficients_unique n gf64OfNat first second ?_ fun i _ => same (gf64OfNat i)
  intro i left j right equal
  exact gf64OfNat_injective (lt_of_lt_of_le left fits) (lt_of_lt_of_le right fits) equal

section Powers

variable {m : ℕ} (y : Gf64)

theorem value_hqc_cvt (f : ℕ → Gf64) :
    evaluate m (hqc_cvt f (2 ^ m) 0 m) y = weigh (2 ^ m) (fun k => y ^ k) f := by
  have converted := weigh_hqc_cvt y (2 ^ m) 0 m (fun _ _ => 1) f (dvd_refl _)
  calc _ = _ := weigh_congr (fun idx inside => ?_) (fun _ _ => rfl)
    _ = _ := converted
    _ = _ := weigh_congr (fun idx inside => ?_) (fun _ _ => rfl)
  · rw [one_mul, pow_zero, Nat.div_one, Nat.mod_eq_of_lt inside]
  · rw [one_mul, pow_zero, Nat.div_one, Nat.mod_eq_of_lt inside]

theorem value_hqc_icvt (g : ℕ → Gf64) :
    weigh (2 ^ m) (fun k => y ^ k) (hqc_icvt g (2 ^ m) 0 m) = evaluate m g y := by
  have converted := weigh_hqc_icvt y (2 ^ m) 0 m (fun _ _ => 1) g (dvd_refl _)
  calc _ = _ := weigh_congr (fun idx inside => ?_) (fun _ _ => rfl)
    _ = _ := converted
    _ = _ := weigh_congr (fun idx inside => ?_) (fun _ _ => rfl)
  · rw [one_mul, pow_zero, Nat.div_one, Nat.mod_eq_of_lt inside]
  · rw [one_mul, pow_zero, Nat.div_one, Nat.mod_eq_of_lt inside]

end Powers

theorem hqc_icvt_cvt {m : ℕ} (fits : m ≤ 64) (f : ℕ → Gf64) :
    ∀ i < 2 ^ m, hqc_icvt (hqc_cvt f (2 ^ m) 0 m) (2 ^ m) 0 m i = f i :=
  coefficients_of_values (Nat.pow_le_pow_right two_pos fits) _ _ fun y => by
    rw [value_hqc_icvt, value_hqc_cvt]

theorem hqc_cvt_icvt {m : ℕ} (fits : m ≤ 64) (g : ℕ → Gf64) :
    ∀ i < 2 ^ m, hqc_cvt (hqc_icvt g (2 ^ m) 0 m) (2 ^ m) 0 m i = g i := by
  refine right_inverse_of_left (fun f => hqc_cvt f (2 ^ m) 0 m) (fun g => hqc_icvt g (2 ^ m) 0 m) ?_
    (hqc_icvt_cvt fits) g
  intro g g' same
  refine coefficients_of_values (Nat.pow_le_pow_right two_pos fits) _ _ fun y => ?_
  rw [value_hqc_icvt, value_hqc_icvt]
  exact weigh_congr (fun _ _ => rfl) same

/-! ## Other lengths -/

section Lengths

variable {n : ℕ} {data : ℕ → Gf64}

theorem blockStarts_eq (datalen : ℕ) (step : ℕ) : blockStarts datalen step =
    (List.range ((datalen + step - 1) / step)).map (· * step) := by
  rw [blockStarts]
  apply List.ext_getElem
  · simp
  · intro i _ _
    simp [mul_comm]

/-- Blocks past the end hold no source of an addition that counts. -/
theorem filter_starts {step blocks : ℕ} (pos : 0 < step) (covered : n ≤ blocks * step)
    (pairs : ℕ → List (ℕ × ℕ)) (above : ∀ base, ∀ pair ∈ pairs base, base ≤ pair.2) :
    ((blockStarts n step).flatMap pairs).filter (fun pair => pair.2 < n) =
      ((blockStarts (blocks * step) step).flatMap pairs).filter fun pair => pair.2 < n := by
  have few : (n + step - 1) / step ≤ blocks := by
    rw [Nat.div_le_iff_le_mul_add_pred pos, Nat.mul_comm]
    omega
  obtain ⟨more, rfl⟩ := Nat.exists_eq_add_of_le few
  have empty : ((List.range more).map fun block => ((n + step - 1) / step + block) * step).flatMap
      (fun base => (pairs base).filter fun pair => pair.2 < n) = [] := by
    rw [List.flatMap_eq_nil_iff]
    intro base member
    obtain ⟨block, _, rfl⟩ := List.mem_map.mp member
    rw [List.filter_eq_nil_iff]
    intro pair inside
    have start := above _ pair inside
    have past : n ≤ (n + step - 1) / step * step := by
      have whole := Nat.div_add_mod (n + step - 1) step
      have rest := Nat.mod_lt (n + step - 1) pos
      rw [Nat.mul_comm] at whole
      omega
    have later : (n + step - 1) / step * step ≤ ((n + step - 1) / step + block) * step :=
      Nat.mul_le_mul_right _ (Nat.le_add_right _ _)
    simp only [decide_eq_true_eq]
    omega
  rw [List.filter_flatMap, List.filter_flatMap, blockStarts_mul pos, blockStarts_eq,
    List.range_add, List.map_append, List.flatMap_append, List.map_map]
  simp only [Function.comp_def]
  rw [empty, List.append_nil]

/-- One level of divisions stops at the end without leaving anything out. -/
theorem level_ends (ends : Ends n data) {blocks polylen si_h si_l : ℕ} (less : si_l < si_h)
    (le : si_h ≤ polylen) (covered : n ≤ blocks * polylen) :
    (blockStarts n polylen).foldl (fun data j => hqc_cvt_div_blk data j si_h si_l polylen) data =
        (blockStarts (blocks * polylen) polylen).foldl
          (fun data j => hqc_cvt_div_blk data j si_h si_l polylen) data ∧
      Ends n ((blockStarts n polylen).foldl
        (fun data j => hqc_cvt_div_blk data j si_h si_l polylen) data) := by
  have down (starts : List ℕ) : ∀ pair ∈ starts.flatMap fun j => divPairs j si_h si_l polylen,
      pair.1 < pair.2 := by
    intro pair member
    obtain ⟨j, _, inside⟩ := List.mem_flatMap.mp member
    exact (mem_divPairs less le inside).2.1
  simp only [hqc_cvt_div_blk_pairs]
  rw [foldl_additions, foldl_additions]
  refine ⟨?_, ends_additions ends (down _)⟩
  rw [additions_filter ends (down _), additions_filter ends (down _),
    filter_starts (by omega) covered]
  intro base pair member
  have bounds := mem_divPairs less le member
  omega

theorem level_ends_back (ends : Ends n data) {blocks polylen si_h si_l : ℕ} (less : si_l < si_h)
    (le : si_h ≤ polylen) (covered : n ≤ blocks * polylen) :
    (blockStarts n polylen).foldl (fun data j => hqc_cvt_idiv_blk data j si_h si_l polylen) data =
        (blockStarts (blocks * polylen) polylen).foldl
          (fun data j => hqc_cvt_idiv_blk data j si_h si_l polylen) data ∧
      Ends n ((blockStarts n polylen).foldl
        (fun data j => hqc_cvt_idiv_blk data j si_h si_l polylen) data) := by
  have down (starts : List ℕ) :
      ∀ pair ∈ starts.flatMap fun j => (divPairs j si_h si_l polylen).reverse,
        pair.1 < pair.2 := by
    intro pair member
    obtain ⟨j, _, inside⟩ := List.mem_flatMap.mp member
    exact (mem_divPairs less le (List.mem_reverse.mp inside)).2.1
  simp only [hqc_cvt_idiv_blk_pairs]
  rw [foldl_additions, foldl_additions]
  refine ⟨?_, ends_additions ends (down _)⟩
  rw [additions_filter ends (down _), additions_filter ends (down _),
    filter_starts (by omega) covered]
  intro base pair member
  have bounds := mem_divPairs less le (List.mem_reverse.mp member)
  omega

/-- So do all levels, in any order. -/
theorem levels_ends (step : (ℕ → Gf64) → ℕ → ℕ → ℕ → Gf64) (si : ℕ) {length log bits : ℕ}
    (tiled : 2 ^ (bits + log) ∣ length)
    (level : ∀ data, Ends n data → ∀ i ≥ si, ∀ blocks, length = blocks * 2 ^ (i + log + 1) →
      step data i n = step data i length ∧ Ends n (step data i n))
    (levels : List ℕ) (range : ∀ i ∈ levels, si ≤ i ∧ i < bits) (ends : Ends n data) :
    levels.foldl (fun data i => step data i n) data =
        levels.foldl (fun data i => step data i length) data ∧
      Ends n (levels.foldl (fun data i => step data i n) data) := by
  induction levels generalizing data with
  | nil => exact ⟨rfl, ends⟩
  | cons i levels ih =>
    obtain ⟨low, high⟩ := range i List.mem_cons_self
    obtain ⟨blocks, whole⟩ : ∃ blocks, length = blocks * 2 ^ (i + log + 1) :=
      exists_eq_mul_left_of_dvd ((pow_dvd_pow 2 (by omega)).trans tiled)
    obtain ⟨same, kept⟩ := level data ends i low blocks whole
    obtain ⟨later, last⟩ := ih
      (fun other member => range other (List.mem_cons_of_mem i member)) kept
    rw [List.foldl_cons, List.foldl_cons, later, same]
    exact ⟨rfl, same ▸ later ▸ last⟩

theorem rep_in_si_ends (ends : Ends n data) {length log bits si : ℕ} (pos : 0 < si)
    (tiled : 2 ^ (bits + log) ∣ length) (inside : n ≤ length) :
    hqc_cvt_rep_in_si data n log bits si = hqc_cvt_rep_in_si data length log bits si ∧
      Ends n (hqc_cvt_rep_in_si data n log bits si) := by
  refine levels_ends (fun data i datalen => (blockStarts datalen (2 ^ (i + log + 1))).foldl
    (fun data j => hqc_cvt_div_blk data j (2 ^ (i + log)) (2 ^ (i + log - si))
      (2 ^ (i + log + 1))) data) si tiled ?_ _ ?_ ends
  · rintro data ends i low blocks rfl
    exact level_ends ends (Nat.pow_lt_pow_right (by omega) (by omega))
      (Nat.pow_le_pow_right (by omega) (by omega)) inside
  · intro i member
    have range := List.mem_range'_1.mp (List.mem_reverse.mp member)
    omega

theorem irep_in_si_ends (ends : Ends n data) {length log bits si : ℕ} (pos : 0 < si)
    (tiled : 2 ^ (bits + log) ∣ length) (inside : n ≤ length) :
    hqc_cvt_irep_in_si data n log bits si = hqc_cvt_irep_in_si data length log bits si ∧
      Ends n (hqc_cvt_irep_in_si data n log bits si) := by
  refine levels_ends (fun data i datalen => (blockStarts datalen (2 ^ (i + log + 1))).foldl
    (fun data j => hqc_cvt_idiv_blk data j (2 ^ (i + log)) (2 ^ (i + log - si))
      (2 ^ (i + log + 1))) data) si tiled ?_ _ ?_ ends
  · rintro data ends i low blocks rfl
    exact level_ends_back ends (Nat.pow_lt_pow_right (by omega) (by omega))
      (Nat.pow_le_pow_right (by omega) (by omega)) inside
  · intro i member
    have range := List.mem_range'_1.mp member
    omega

/-- On a vector that is continued by zeros, the length may be rounded up. -/
theorem hqc_cvt_ends (ends : Ends n data) {length : ℕ} (inside : n ≤ length) (log bits : ℕ)
    (tiled : 2 ^ (bits + log) ∣ length) :
    hqc_cvt data n log bits = hqc_cvt data length log bits ∧ Ends n (hqc_cvt data n log bits) := by
  induction bits using Nat.strong_induction_on generalizing data log with
  | _ bits ih =>
    rw [hqc_cvt, hqc_cvt]
    split
    · exact ⟨rfl, ends⟩
    · rename_i large
      have pos := choose_si_pos large
      have less := choose_si_lt large
      obtain ⟨divided, first⟩ := rep_in_si_ends ends pos tiled inside
      obtain ⟨low, second⟩ := ih _ less first log
        ((pow_dvd_pow 2 (by omega)).trans tiled)
      obtain ⟨high, third⟩ := ih (bits - hqc_cvt_choose_si bits) (by omega) second
        (log + hqc_cvt_choose_si bits) (by
          rwa [show bits - hqc_cvt_choose_si bits + (log + hqc_cvt_choose_si bits) = bits + log by
            omega])
      rw [divided] at low third high
      rw [low] at third high
      dsimp only
      rw [divided, low, high]
      exact ⟨rfl, high ▸ third⟩

theorem hqc_icvt_ends (ends : Ends n data) {length : ℕ} (inside : n ≤ length) (log bits : ℕ)
    (tiled : 2 ^ (bits + log) ∣ length) :
    hqc_icvt data n log bits = hqc_icvt data length log bits ∧
      Ends n (hqc_icvt data n log bits) := by
  induction bits using Nat.strong_induction_on generalizing data log with
  | _ bits ih =>
    rw [hqc_icvt, hqc_icvt]
    split
    · exact ⟨rfl, ends⟩
    · rename_i large
      have pos := choose_si_pos large
      have less := choose_si_lt large
      obtain ⟨low, first⟩ := ih _ less ends log
        ((pow_dvd_pow 2 (by omega)).trans tiled)
      obtain ⟨high, second⟩ := ih (bits - hqc_cvt_choose_si bits) (by omega) first
        (log + hqc_cvt_choose_si bits) (by
          rwa [show bits - hqc_cvt_choose_si bits + (log + hqc_cvt_choose_si bits) = bits + log by
            omega])
      obtain ⟨multiplied, third⟩ := irep_in_si_ends second pos tiled inside
      rw [low] at high third multiplied
      rw [high] at third multiplied
      dsimp only
      rw [low, high, multiplied]
      exact ⟨rfl, multiplied ▸ third⟩

theorem weigh_ends (ends : Ends n data) {length : ℕ} (inside : n ≤ length) (weight : ℕ → Gf64) :
    weigh n weight data = weigh length weight data := by
  obtain ⟨more, rfl⟩ := Nat.exists_eq_add_of_le inside
  rw [weigh, weigh, Finset.sum_range_add]
  have nothing : ∑ i ∈ Finset.range more, data (n + i) * weight (n + i) = 0 :=
    Finset.sum_eq_zero fun i _ => by rw [ends _ (Nat.le_add_right n i), zero_mul]
  rw [nothing, add_zero]

end Lengths

theorem basisCvt_recursive_v2_eq (f : ℕ → Gf64) (n : ℕ) :
    basisCvt_recursive_v2 f n = hqc_cvt f n 0 (Nat.clog 2 n) ∧
      ibasisCvt_recursive_v2 f n = hqc_icvt f n 0 (Nat.clog 2 n) := by
  rw [basisCvt_recursive_v2, ibasisCvt_recursive_v2]
  by_cases small : n ≤ 1
  · have levels : Nat.clog 2 n ≤ 1 := by
      rw [Nat.clog_of_right_le_one small]
      exact Nat.zero_le 1
    rw [if_pos small, if_pos small, hqc_cvt, hqc_icvt, dif_pos levels, dif_pos levels]
    exact ⟨rfl, rfl⟩
  · rw [if_neg small, if_neg small]
    exact ⟨rfl, rfl⟩

/-- The conversions are inverse to each other and keep the polynomial, over every power of two
whatever follows the vector, and over every other length for vectors continued by zeros. A length
is an `int` in the source. -/
theorem conversions_inverse :
    (∀ m ≤ 64, ∀ f : ℕ → Gf64, ∀ i < 2 ^ m,
      hqc_icvt (hqc_cvt f (2 ^ m) 0 m) (2 ^ m) 0 m i = f i ∧
      hqc_cvt (hqc_icvt f (2 ^ m) 0 m) (2 ^ m) 0 m i = f i) ∧
    ∀ n ≤ 2 ^ 64, ∀ f : ℕ → Gf64, Ends n f →
      basisCvt_recursive_v2 f n = hqc_cvt f n 0 (Nat.clog 2 n) ∧
      ibasisCvt_recursive_v2 f n = hqc_icvt f n 0 (Nat.clog 2 n) ∧
      ibasisCvt_recursive_v2 (basisCvt_recursive_v2 f n) n = f ∧
      basisCvt_recursive_v2 (ibasisCvt_recursive_v2 f n) n = f ∧
      ∀ y, weigh n (fun i => novel (Nat.clog 2 n) i y) (basisCvt_recursive_v2 f n) =
        weigh n (fun i => y ^ i) f := by
  refine ⟨fun m fits f i inside => ⟨hqc_icvt_cvt fits f i inside, hqc_cvt_icvt fits f i inside⟩, ?_⟩
  intro n fits f ends
  have inside : n ≤ 2 ^ Nat.clog 2 n := Nat.le_pow_clog (by norm_num) n
  have few : Nat.clog 2 n ≤ 64 := Nat.clog_le_of_le_pow fits
  obtain ⟨forward, back⟩ := basisCvt_recursive_v2_eq f n
  obtain ⟨rounded, products⟩ := hqc_cvt_ends ends inside 0 (Nat.clog 2 n) dvd_rfl
  obtain ⟨roundedBack, monomials⟩ := hqc_icvt_ends ends inside 0 (Nat.clog 2 n) dvd_rfl
  refine ⟨forward, back, ?_, ?_, fun y => ?_⟩
  · obtain ⟨again, last⟩ := hqc_icvt_ends products inside 0 (Nat.clog 2 n) dvd_rfl
    rw [(basisCvt_recursive_v2_eq _ n).2, forward]
    funext i
    by_cases within : i < n
    · rw [again, rounded, hqc_icvt_cvt few f i (within.trans_le inside)]
    · rw [last i (not_lt.mp within), ends i (not_lt.mp within)]
  · obtain ⟨again, last⟩ := hqc_cvt_ends monomials inside 0 (Nat.clog 2 n) dvd_rfl
    rw [(basisCvt_recursive_v2_eq _ n).1, back]
    funext i
    by_cases within : i < n
    · rw [again, roundedBack, hqc_cvt_icvt few f i (within.trans_le inside)]
    · rw [last i (not_lt.mp within), ends i (not_lt.mp within)]
  · rw [forward, weigh_ends products inside, weigh_ends ends inside, rounded]
    exact value_hqc_cvt y f

/-- Three coefficients, and the first four words of any vector. -/
theorem conversions_inverse_three :
    (∀ f : ℕ → Gf64, hqc_icvt (hqc_cvt f (2 ^ 2) 0 2) (2 ^ 2) 0 2 3 = f 3) ∧
      ibasisCvt_recursive_v2 (basisCvt_recursive_v2 (fun i => if i < 3 then 1 else 0) 3) 3 =
        fun i => if i < 3 then (1 : Gf64) else 0 :=
  ⟨fun f => (conversions_inverse.1 2 (by norm_num) f 3 (by norm_num)).1,
    (conversions_inverse.2 3 (by norm_num) _ fun _ past => if_neg (not_lt.mpr past)).2.2.1⟩

end Par3
