import Mathlib.LinearAlgebra.Lagrange
import Mathlib.Algebra.Group.Subgroup.Lattice
import Par3.AdditiveFft
import Par3.Words

/-!
# The additive transform evaluates

The butterflies of a level split the values over a coset into those over its two halves. What they
compute from coefficients are the values at the points in the order of their indices, from the shift
on; the inverse butterflies give the coefficients again. A polynomial is known from its values at as
many points as it has coefficients, so that products of values are the values of the product.
-/

namespace Par3

open NovelBasis Polynomial

/-! ## One level -/

/-- The loop over the halves, after some rounds. -/
theorem combineHalves_rounds (combine : Gf64 → Gf64 → Gf64 × Gf64) (base half : ℕ) (f : ℕ → Gf64)
    (rounds : ℕ) (le : rounds ≤ half) (i : ℕ) :
    (List.range rounds).foldl (fun f j =>
        let pair := combine (f (base + j)) (f (base + j + half))
        Function.update (Function.update f (base + j) pair.1) (base + j + half) pair.2) f i =
      if base ≤ i ∧ i < base + rounds then (combine (f i) (f (i + half))).1
      else if base + half ≤ i ∧ i < base + half + rounds then (combine (f (i - half)) (f i)).2
      else f i := by
  induction rounds generalizing i with
  | zero => simp only [List.range_zero, List.foldl_nil]; rw [if_neg (by omega), if_neg (by omega)]
  | succ rounds ih =>
    have known := ih (by omega)
    rw [List.range_succ, List.foldl_append, List.foldl_cons, List.foldl_nil]
    simp only
    rw [known (base + rounds), known (base + rounds + half), if_neg (by omega), if_neg (by omega),
      if_neg (by omega), if_neg (by omega)]
    by_cases high : i = base + rounds + half
    · rw [high, Function.update_self, if_neg (by omega), if_pos (by omega), Nat.add_sub_cancel]
    · rw [Function.update_of_ne high]
      by_cases low : i = base + rounds
      · rw [low, Function.update_self, if_pos (by omega)]
      · rw [Function.update_of_ne low, known i]
        congr 1
        · exact propext (by omega)
        · congr 1
          exact propext (by omega)

section CombineHalves

variable (combine : Gf64 → Gf64 → Gf64 × Gf64) {base half j : ℕ} (f : ℕ → Gf64)

theorem combineHalves_low (inside : j < half) :
    combineHalves combine base half f (base + j) =
      (combine (f (base + j)) (f (base + half + j))).1 := by
  rw [combineHalves, combineHalves_rounds _ _ _ _ half le_rfl, if_pos (by omega),
    show base + j + half = base + half + j by omega]

theorem combineHalves_high (inside : j < half) :
    combineHalves combine base half f (base + half + j) =
      (combine (f (base + j)) (f (base + half + j))).2 := by
  rw [combineHalves, combineHalves_rounds _ _ _ _ half le_rfl, if_neg (by omega),
    if_pos (by omega), show base + half + j - half = base + j by omega]

theorem combineHalves_outside {i : ℕ} (outside : i < base ∨ base + 2 * half ≤ i) :
    combineHalves combine base half f i = f i := by
  rw [combineHalves, combineHalves_rounds _ _ _ _ half le_rfl, if_neg (by omega),
    if_neg (by omega)]

end CombineHalves

/-! ## Butterflies -/

section Butterflies

variable {avx512 registered : Bool}

/-- The lanes compute what the loop does. -/
theorem forwardPair_eq (half : ℕ) (s_a fl fh : Gf64) :
    forwardPair avx512 half s_a fl fh = (fl + s_a * fh, fl + (s_a + 1) * fh) := by
  rw [forwardPair]
  split
  · refine Prod.ext ?_ ?_
    · simp only [mul_comm]
    · simp only
      ring
  · rfl

theorem inversePair_eq (half : ℕ) (s_a fl fh : Gf64) :
    inversePair avx512 half s_a fl fh = (fl + s_a * (fl + fh), fl + fh) := by
  rw [inversePair]
  split
  · rw [mul_comm s_a]
  · rfl

/-- The value at a point of a coset, from the halves of the coefficients. -/
theorem evaluate_halves (logn : ℕ) (coefficients : ℕ → Gf64) {k j : ℕ}
    (small : j < 2 ^ logn) (le : logn ≤ 20) :
    evaluate (logn + 1) coefficients (compute_v_j k + compute_v_j j) =
      evaluate logn (fun i => coefficients i +
        vanish logn (compute_v_j k) * coefficients (2 ^ logn + i))
        (compute_v_j k + compute_v_j j) := by
  have zero : vanish logn (compute_v_j j) = 0 := by
    have within : j < 2 ^ 20 := small.trans_le (Nat.pow_le_pow_right (by omega) le)
    rw [vanish_v logn within, Nat.shiftRight_eq_div_pow, Nat.div_eq_of_lt small, compute_v_j_eq,
      point_zero]
  rw [evaluate_succ, map_add, zero, add_zero]

theorem evaluate_one (coefficients : ℕ → Gf64) (y : Gf64) :
    evaluate 1 coefficients y = coefficients 0 + y * coefficients 1 := by
  rw [evaluate_succ, evaluate, weigh]
  simp

/-- The next shift is in the table again. -/
theorem shift_next {k m logn : ℕ} (inside : k < 2 ^ m) (less : logn < m) :
    ∃ next < 2 ^ m, compute_v_j k + compute_v_j (2 ^ logn) = compute_v_j next := by
  refine ⟨k ^^^ 2 ^ logn, Nat.xor_lt_two_pow inside (Nat.pow_lt_pow_right (by omega) less), ?_⟩
  rw [compute_v_j_eq, compute_v_j_eq, compute_v_j_eq, point_xor]

theorem vanish_half (logn : ℕ) (small : logn < 20) : vanish logn (compute_v_j (2 ^ logn)) = 1 := by
  rw [vanish_v logn (Nat.pow_lt_pow_right (by omega) small), Nat.shiftRight_eq_div_pow,
    Nat.div_self (Nat.two_pow_pos logn)]
  decide

/-- The butterflies compute the values over a coset. -/
theorem butterfly_fwd_evaluate {m : ℕ} (le : m ≤ 20) (logn : ℕ) (less : logn ≤ m) (pos : 0 < logn)
    (f : ℕ → Gf64) (base : ℕ) {k : ℕ} (inside : k < 2 ^ m) :
    (∀ j < 2 ^ logn,
      butterfly_fwd avx512 logn f base (2 ^ logn) (2 ^ m) (compute_v_j k)
          (get_or_build_v_table (2 ^ m) registered) (base + j) =
        evaluate logn (fun i => f (base + i)) (compute_v_j k + compute_v_j j)) ∧
    ∀ i, i < base ∨ base + 2 ^ logn ≤ i →
      butterfly_fwd avx512 logn f base (2 ^ logn) (2 ^ m) (compute_v_j k)
        (get_or_build_v_table (2 ^ m) registered) i = f i := by
  induction logn generalizing f base k with
  | zero => omega
  | succ logn ih =>
    have within : k < 2 ^ 20 := inside.trans_le (Nat.pow_le_pow_right (by omega) le)
    rcases Nat.eq_zero_or_pos logn with rfl | more
    · rw [butterfly_fwd, if_pos (by norm_num)]
      refine ⟨fun j small => ?_, fun i outside => ?_⟩
      · have first : compute_v_j 0 = 0 := by rw [compute_v_j_eq, point_zero]
        have second : compute_v_j 1 = 1 := by decide
        have cases : j = 0 ∨ j = 1 := by omega
        rcases cases with rfl | rfl
        · rw [evaluate_one, first, add_zero (compute_v_j k), Function.update_of_ne (by omega)]
          exact Function.update_self ..
        · rw [evaluate_one, second, Function.update_self]
          rfl
      · rw [Function.update_of_ne (by omega), Function.update_of_ne (by omega)]
    · have double : 2 ^ (logn + 1) = 2 ^ logn + 2 ^ logn := by ring
      have many : 2 ^ 1 ≤ 2 ^ logn := Nat.pow_le_pow_right (by omega) more
      have size : 2 ^ (logn + 1) / 2 = 2 ^ logn := by omega
      obtain ⟨next, nextInside, shift⟩ := shift_next inside (by omega : logn < m)
      have factor : vanish logn (compute_v_j next) = vanish logn (compute_v_j k) + 1 := by
        rw [← shift, map_add, vanish_half logn (by omega)]
      rw [butterfly_fwd, if_neg (by omega), size]
      rw [si_eval_v logn inside (Nat.pow_le_pow_right (by omega) le)]
      generalize combined : combineHalves
        (forwardPair avx512 (2 ^ logn) (vanish logn (compute_v_j k))) base (2 ^ logn) f = g
      obtain ⟨left, leftFrame⟩ := ih (by omega) more g base inside
      generalize lower : butterfly_fwd avx512 logn g base (2 ^ logn) (2 ^ m) (compute_v_j k)
        (get_or_build_v_table (2 ^ m) registered) = h at left leftFrame ⊢
      have values : (get_or_build_v_table (2 ^ m) registered).values (2 ^ logn) =
        compute_v_j (2 ^ logn) := rfl
      obtain ⟨right, rightFrame⟩ := ih (by omega) more h (base + 2 ^ logn)
        nextInside
      rw [values, shift]
      refine ⟨fun j small => ?_, fun i outside => ?_⟩
      · rcases Nat.lt_or_ge j (2 ^ logn) with low | high
        · rw [rightFrame _ (Or.inl (by omega)), left j low,
            evaluate_halves logn _ low (by omega)]
          refine weigh_congr (fun _ _ => rfl) fun i half => ?_
          rw [← combined, combineHalves_low _ _ half, forwardPair_eq, ← Nat.add_assoc]
        · obtain ⟨index, rfl⟩ := Nat.exists_eq_add_of_le high
          have half : index < 2 ^ logn := by omega
          rw [← Nat.add_assoc, right index half, ← v_half_add (by omega) half, ← add_assoc, shift,
            evaluate_halves logn _ half
              (by omega), factor]
          refine weigh_congr (fun _ _ => rfl) fun i half => ?_
          rw [leftFrame _ (Or.inr (by omega)), ← combined, combineHalves_high _ _ half,
            forwardPair_eq, ← Nat.add_assoc]
      · rw [rightFrame i (by omega), leftFrame i (by omega), ← combined,
          combineHalves_outside _ _ (by omega)]

/-- The inverse butterflies give the coefficients of values over a coset. -/
theorem butterfly_inv_evaluate {m : ℕ} (le : m ≤ 20) (logn : ℕ) (less : logn ≤ m)
    (pos : 0 < logn) (f coefficients : ℕ → Gf64) (base : ℕ) {k : ℕ} (inside : k < 2 ^ m)
    (given : ∀ j < 2 ^ logn,
      f (base + j) = evaluate logn coefficients (compute_v_j k + compute_v_j j)) :
    (∀ j < 2 ^ logn,
      butterfly_inv avx512 logn f base (2 ^ logn) (2 ^ m) (compute_v_j k)
          (get_or_build_v_table (2 ^ m) registered) (base + j) = coefficients j) ∧
    ∀ i, i < base ∨ base + 2 ^ logn ≤ i →
      butterfly_inv avx512 logn f base (2 ^ logn) (2 ^ m) (compute_v_j k)
        (get_or_build_v_table (2 ^ m) registered) i = f i := by
  induction logn generalizing f coefficients base k with
  | zero => omega
  | succ logn ih =>
    have within : k < 2 ^ 20 := inside.trans_le (Nat.pow_le_pow_right (by omega) le)
    rcases Nat.eq_zero_or_pos logn with rfl | more
    · have first := given 0 (by norm_num)
      have second := given 1 (by norm_num)
      have zero : compute_v_j 0 = 0 := by rw [compute_v_j_eq, point_zero]
      have one : compute_v_j 1 = 1 := by decide
      rw [evaluate_one, zero, add_zero (compute_v_j k), Nat.add_zero] at first
      rw [evaluate_one, one] at second
      have upper : f base + f (base + 1) = coefficients 1 := by
        rw [first, second]
        linear_combination (coefficients 0 + compute_v_j k * coefficients 1) *
          (CharTwo.two_eq_zero : (2 : Gf64) = 0)
      have lower : f base + compute_v_j k * coefficients 1 = coefficients 0 := by
        rw [first]
        linear_combination (compute_v_j k * coefficients 1) *
          (CharTwo.two_eq_zero : (2 : Gf64) = 0)
      rw [butterfly_inv, if_pos (by norm_num), upper, lower]
      refine ⟨fun j small => ?_, fun i outside => ?_⟩
      · have cases : j = 0 ∨ j = 1 := by omega
        rcases cases with rfl | rfl
        · rw [Function.update_of_ne (by omega), Nat.add_zero, Function.update_self]
        · rw [Function.update_self]
      · rw [Function.update_of_ne (by omega), Function.update_of_ne (by omega)]
    · have double : 2 ^ (logn + 1) = 2 ^ logn + 2 ^ logn := by ring
      have many : 2 ^ 1 ≤ 2 ^ logn := Nat.pow_le_pow_right (by omega) more
      have size : 2 ^ (logn + 1) / 2 = 2 ^ logn := by omega
      obtain ⟨next, nextInside, shift⟩ := shift_next inside (by omega : logn < m)
      have factor : vanish logn (compute_v_j next) = vanish logn (compute_v_j k) + 1 := by
        rw [← shift, map_add, vanish_half logn (by omega)]
      have values : (get_or_build_v_table (2 ^ m) registered).values (2 ^ logn) =
        compute_v_j (2 ^ logn) := rfl
      rw [butterfly_inv, if_neg (by omega), size, values, shift]
      rw [si_eval_v logn inside (Nat.pow_le_pow_right (by omega) le)]
      obtain ⟨left, leftFrame⟩ := ih (by omega) more f
        (fun i => coefficients i + vanish logn (compute_v_j k) * coefficients (2 ^ logn + i)) base
        inside (fun j low => by
          rw [given j (by omega), evaluate_halves logn _ low (by omega)])
      generalize lower : butterfly_inv avx512 logn f base (2 ^ logn) (2 ^ m) (compute_v_j k)
        (get_or_build_v_table (2 ^ m) registered) = g at left leftFrame ⊢
      obtain ⟨right, rightFrame⟩ := ih (by omega) more g
        (fun i => coefficients i +
          (vanish logn (compute_v_j k) + 1) * coefficients (2 ^ logn + i)) (base + 2 ^ logn)
        nextInside (fun j low => by
          rw [leftFrame _ (Or.inr (by omega)), Nat.add_assoc, given _ (by omega),
            ← v_half_add (by omega) low, ← add_assoc, shift,
            evaluate_halves logn _ low
              (by omega), factor])
      generalize upper : butterfly_inv avx512 logn g (base + 2 ^ logn) (2 ^ logn) (2 ^ m)
        (compute_v_j next) (get_or_build_v_table (2 ^ m) registered) = h at right rightFrame ⊢
      have halves : ∀ j < 2 ^ logn,
          h (base + j) + h (base + 2 ^ logn + j) = coefficients (2 ^ logn + j) := by
        intro j low
        rw [rightFrame _ (Or.inl (by omega)), left j low, right j low]
        linear_combination (coefficients j +
          vanish logn (compute_v_j k) * coefficients (2 ^ logn + j)) *
          (CharTwo.two_eq_zero : (2 : Gf64) = 0)
      refine ⟨fun j small => ?_, fun i outside => ?_⟩
      · rcases Nat.lt_or_ge j (2 ^ logn) with low | high
        · rw [combineHalves_low _ _ low, inversePair_eq]
          simp only
          rw [halves j low, rightFrame _ (Or.inl (by omega)), left j low]
          linear_combination (vanish logn (compute_v_j k) * coefficients (2 ^ logn + j)) *
            (CharTwo.two_eq_zero : (2 : Gf64) = 0)
        · obtain ⟨index, rfl⟩ := Nat.exists_eq_add_of_le high
          have half : index < 2 ^ logn := by omega
          rw [← Nat.add_assoc, combineHalves_high _ _ half, inversePair_eq]
          exact halves index half
      · rw [combineHalves_outside _ _ (by omega), rightFrame i (by omega), leftFrame i (by omega)]

end Butterflies

/-! ## Points -/

/-- The point whose value comes out at an index: the shift is the last basis vector. -/
def transformPoint (m i : ℕ) : Gf64 := point cantor m (i ^^^ 2 ^ (m - 1))

theorem transformPoint_eq {m i : ℕ} (le : m ≤ 20) (pos : 0 < m) (inside : i < 2 ^ m) :
    transformPoint m i = compute_v_j (2 ^ (m - 1)) + compute_v_j i := by
  have power : 2 ^ (m - 1) < 2 ^ m := Nat.pow_lt_pow_right (by omega) (by omega)
  rw [transformPoint, ← point_extend cantor le (Nat.xor_lt_two_pow inside power), Nat.xor_comm,
    point_xor, compute_v_j_eq, compute_v_j_eq]

/-- The subspace that the first basis vectors span. -/
def cantorSubspace (m : ℕ) : AddSubgroup Gf64 := AddSubgroup.closure {v | ∃ k < m, v = cantor k}

theorem point_mem (m j : ℕ) : point cantor m j ∈ cantorSubspace m := by
  rw [point, BinaryField.bitSum]
  refine (cantorSubspace m).sum_mem fun i member => ?_
  split
  · exact AddSubgroup.subset_closure ⟨i, Finset.mem_range.mp member, rfl⟩
  · exact AddSubgroup.zero_mem _

theorem exists_point {m : ℕ} {v : Gf64} (member : v ∈ cantorSubspace m) :
    ∃ j < 2 ^ m, point cantor m j = v := by
  induction member using AddSubgroup.closure_induction with
  | mem v vector =>
    obtain ⟨k, inside, rfl⟩ := vector
    exact ⟨2 ^ k, Nat.pow_lt_pow_right (by omega) inside, point_two_pow cantor inside⟩
  | zero => exact ⟨0, Nat.two_pow_pos m, point_zero cantor m⟩
  | add v w _ _ first second =>
    obtain ⟨j, left, rfl⟩ := first
    obtain ⟨k, right, rfl⟩ := second
    exact ⟨j ^^^ k, Nat.xor_lt_two_pow left right, point_xor cantor m j k⟩
  | neg v _ known => exact known

/-- The points are those of the subspace, each at one index. -/
theorem transformPoint_bijOn {m : ℕ} (le : m ≤ 20) :
    Set.BijOn (transformPoint m) (Set.Iio (2 ^ m)) (cantorSubspace m) := by
  have power (pos : 0 < m) : 2 ^ (m - 1) < 2 ^ m :=
    Nat.pow_lt_pow_right (by omega) (by omega)
  refine ⟨fun i _ => point_mem m _, fun i left j right same => ?_, fun v member => ?_⟩
  · rcases Nat.eq_zero_or_pos m with rfl | pos
    · have first : i < 1 := left
      have second : j < 1 := right
      omega
    · have small : 2 ^ m ≤ 2 ^ 20 := Nat.pow_le_pow_right (by omega) le
      have first : i < 2 ^ m := left
      have second : j < 2 ^ m := right
      rw [transformPoint_eq le pos left, transformPoint_eq le pos right] at same
      exact v_injective (by omega) (by omega) (add_left_cancel same)
  · obtain ⟨j, inside, rfl⟩ := exists_point member
    rcases Nat.eq_zero_or_pos m with rfl | pos
    · exact ⟨0, Nat.two_pow_pos 0, rfl⟩
    · refine ⟨j ^^^ 2 ^ (m - 1), Nat.xor_lt_two_pow inside (power pos), ?_⟩
      rw [transformPoint, Nat.xor_xor_cancel_right]

/-! ## Values and coefficients -/

/-- Coefficients are known from as many values. -/
theorem coefficients_unique (n : ℕ) (points first second : ℕ → Gf64)
    (distinct : Set.InjOn points (Set.Iio n))
    (same : ∀ i < n, weigh n (fun k => points i ^ k) first = weigh n (fun k => points i ^ k) second) :
    ∀ k < n, first k = second k := by
  let polynomial (coefficients : ℕ → Gf64) : Gf64[X] :=
    ∑ k ∈ Finset.range n, C (coefficients k) * X ^ k
  have coeff (coefficients : ℕ → Gf64) (k : ℕ) :
      (polynomial coefficients).coeff k = if k < n then coefficients k else 0 := by
    simp only [polynomial, finsetSum_coeff, coeff_C_mul, coeff_X_pow, mul_ite, mul_one, mul_zero]
    rw [Finset.sum_ite_eq]
    simp only [Finset.mem_range]
  have degree (coefficients : ℕ → Gf64) : (polynomial coefficients).degree < n := by
    rw [degree_lt_iff_coeff_zero]
    intro k beyond
    rw [coeff, if_neg (by omega)]
  have value (coefficients : ℕ → Gf64) (y : Gf64) :
      (polynomial coefficients).eval y = weigh n (fun k => y ^ k) coefficients := by
    simp only [polynomial, eval_finsetSum, eval_mul, eval_C, eval_pow, eval_X, weigh]
  have equal : polynomial first = polynomial second := by
    refine eq_of_degrees_lt_of_eval_index_eq (Finset.range n) ?_ ?_ ?_ ?_ (v := points)
    · intro i left j right
      exact distinct (Finset.mem_range.mp left) (Finset.mem_range.mp right)
    · rw [Finset.card_range]
      exact degree first
    · rw [Finset.card_range]
      exact degree second
    · intro i member
      rw [value, value, same i (Finset.mem_range.mp member)]
  intro k inside
  have known := congrArg (fun p : Gf64[X] => p.coeff k) equal
  simpa only [coeff, if_pos inside] using known

theorem evaluate_basisCvt {m : ℕ} (pos : 0 < m) (f : ℕ → Gf64) (y : Gf64) :
    evaluate m (basisCvt_recursive_v2 f (2 ^ m)) y = weigh (2 ^ m) (fun k => y ^ k) f := by
  have large : ¬2 ^ m ≤ 1 := by
    have power := Nat.pow_le_pow_right (n := 2) (by omega) pos
    omega
  have converted := weigh_hqc_cvt y (2 ^ m) 0 m (fun _ _ => 1) f (dvd_refl _)
  rw [basisCvt_recursive_v2, if_neg large, Nat.clog_pow 2 m (by omega)]
  calc _ = _ := weigh_congr (fun idx inside => ?_) (fun _ _ => rfl)
    _ = _ := converted
    _ = _ := weigh_congr (fun idx inside => ?_) (fun _ _ => rfl)
  · rw [one_mul, pow_zero, Nat.div_one, Nat.mod_eq_of_lt inside]
  · rw [one_mul, pow_zero, Nat.div_one, Nat.mod_eq_of_lt inside]

theorem weigh_ibasisCvt {m : ℕ} (pos : 0 < m) (g : ℕ → Gf64) (y : Gf64) :
    weigh (2 ^ m) (fun k => y ^ k) (ibasisCvt_recursive_v2 g (2 ^ m)) = evaluate m g y := by
  have large : ¬2 ^ m ≤ 1 := by
    have power := Nat.pow_le_pow_right (n := 2) (by omega) pos
    omega
  have converted := weigh_hqc_icvt y (2 ^ m) 0 m (fun _ _ => 1) g (dvd_refl _)
  rw [ibasisCvt_recursive_v2, if_neg large, Nat.clog_pow 2 m (by omega)]
  calc _ = _ := weigh_congr (fun idx inside => ?_) (fun _ _ => rfl)
    _ = _ := converted
    _ = _ := weigh_congr (fun idx inside => ?_) (fun _ _ => rfl)
  · rw [one_mul, pow_zero, Nat.div_one, Nat.mod_eq_of_lt inside]
  · rw [one_mul, pow_zero, Nat.div_one, Nat.mod_eq_of_lt inside]

section Transform

variable {m : ℕ} (le : m ≤ 20) (avx512 registered : Bool)

include le

theorem shift_eq (pos : 0 < m) : cantor (m - 1) = compute_v_j (2 ^ (m - 1)) := by
  rw [compute_v_j_eq, point_two_pow cantor (by omega)]

/-- The transform computes the values at the points. -/
theorem fwd_value (arr : ℕ → Gf64) {i : ℕ} (inside : i < 2 ^ m) :
    gf64_addfft64_fwd_recursive_scratch arr (2 ^ m) avx512 registered i =
      weigh (2 ^ m) (fun k => transformPoint m i ^ k) arr := by
  rcases Nat.eq_zero_or_pos m with rfl | pos
  · have first : i = 0 := by omega
    rw [first, gf64_addfft64_fwd_recursive_scratch, if_pos (by norm_num), weigh]
    simp
  · have large : ¬2 ^ m ≤ 1 := by
      have power := Nat.pow_le_pow_right (n := 2) (by omega) pos
      omega
    have shift : 2 ^ (m - 1) < 2 ^ m := Nat.pow_lt_pow_right (by omega) (by omega)
    have values := (@butterfly_fwd_evaluate avx512 registered m le m le_rfl pos
      (basisCvt_recursive_v2 arr (2 ^ m)) 0 _ shift).1 i inside
    simp only [Nat.zero_add] at values
    rw [gf64_addfft64_fwd_recursive_scratch, if_neg large, Nat.clog_pow 2 m (by omega)]
    rw [shift_eq le pos, values, transformPoint_eq le pos inside]
    exact evaluate_basisCvt pos arr _

/-- The inverse transform computes the coefficients from the values. -/
theorem inv_coefficients (g coefficients : ℕ → Gf64)
    (values : ∀ i < 2 ^ m, g i = weigh (2 ^ m) (fun k => transformPoint m i ^ k) coefficients) :
    ∀ i < 2 ^ m, gf64_addfft64_inv_recursive_scratch g (2 ^ m) avx512 registered i = coefficients i := by
  rcases Nat.eq_zero_or_pos m with rfl | pos
  · intro i inside
    have first : i = 0 := by omega
    rw [first, gf64_addfft64_inv_recursive_scratch, if_pos (by norm_num), values 0 (by norm_num),
      weigh]
    simp
  · have large : ¬2 ^ m ≤ 1 := by
      have power := Nat.pow_le_pow_right (n := 2) (by omega) pos
      omega
    have shift : 2 ^ (m - 1) < 2 ^ m := Nat.pow_lt_pow_right (by omega) (by omega)
    have inverse := (@butterfly_inv_evaluate avx512 registered m le m le_rfl pos g
      (basisCvt_recursive_v2 coefficients (2 ^ m)) 0 _ shift (fun j inside => by
        rw [Nat.zero_add, values j inside, transformPoint_eq le pos inside]
        exact (evaluate_basisCvt pos coefficients _).symm)).1
    simp only [Nat.zero_add] at inverse
    rw [gf64_addfft64_inv_recursive_scratch, if_neg large, Nat.clog_pow 2 m (by omega)]
    rw [shift_eq le pos]
    refine coefficients_unique (2 ^ m) (transformPoint m) _ _ (transformPoint_bijOn le).injOn
      fun i _ => ?_
    rw [weigh_ibasisCvt pos, ← evaluate_basisCvt pos]
    exact weigh_congr (fun _ _ => rfl) inverse

end Transform

/-! ## Products -/

/-- A coefficient of the product of two polynomials. -/
def convolution (a b : List Gf64) (i : ℕ) : Gf64 :=
  ∑ j ∈ Finset.range (i + 1), a.getD j 0 * b.getD (i - j) 0

theorem convolution_nil (a b : List Gf64) (i : ℕ) (empty : a.length = 0 ∨ b.length = 0) :
    convolution a b i = 0 := by
  rw [convolution]
  refine Finset.sum_eq_zero fun j _ => ?_
  rcases empty with first | second
  · rw [List.eq_nil_of_length_eq_zero first, List.getD_nil, zero_mul]
  · rw [List.eq_nil_of_length_eq_zero second, List.getD_nil, mul_zero]

/-- The polynomial with these coefficients. -/
noncomputable def polynomialOf (a : List Gf64) : Gf64[X] :=
  ∑ k ∈ Finset.range a.length, C (a.getD k 0) * X ^ k

theorem polynomialOf_coeff (a : List Gf64) (k : ℕ) : (polynomialOf a).coeff k = a.getD k 0 := by
  simp only [polynomialOf, finsetSum_coeff, coeff_C_mul, coeff_X_pow, mul_ite, mul_one, mul_zero]
  rw [Finset.sum_ite_eq]
  simp only [Finset.mem_range]
  split
  · rfl
  · rw [List.getD_eq_default _ _ (by omega)]

theorem polynomialOf_natDegree (a : List Gf64) : (polynomialOf a).natDegree ≤ a.length - 1 := by
  rw [natDegree_le_iff_coeff_eq_zero]
  intro k beyond
  rw [polynomialOf_coeff, List.getD_eq_default _ _ (by omega)]

theorem convolution_eq (a b : List Gf64) (i : ℕ) :
    convolution a b i = (polynomialOf a * polynomialOf b).coeff i := by
  rw [coeff_mul, convolution, Finset.Nat.sum_antidiagonal_eq_sum_range_succ_mk]
  exact Finset.sum_congr rfl fun j _ => by rw [polynomialOf_coeff, polynomialOf_coeff]

/-- The values of two polynomials multiply to those of their product. -/
theorem weigh_convolution (a b : List Gf64) {n : ℕ} (someA : 0 < a.length) (someB : 0 < b.length)
    (room : a.length + b.length - 1 ≤ n) (y : Gf64) :
    weigh n (fun k => y ^ k) (fun i => a.getD i 0) *
        weigh n (fun k => y ^ k) (fun i => b.getD i 0) =
      weigh n (fun k => y ^ k) (convolution a b) := by
  have value (p : Gf64[X]) (coefficients : ℕ → Gf64) (same : ∀ k, p.coeff k = coefficients k)
      (small : p.natDegree < n) : weigh n (fun k => y ^ k) coefficients = p.eval y := by
    rw [eval_eq_sum_range' small, weigh]
    exact Finset.sum_congr rfl fun k _ => by rw [same]
  have first := polynomialOf_natDegree a
  have second := polynomialOf_natDegree b
  have product : (polynomialOf a * polynomialOf b).natDegree < n := by
    have total := natDegree_mul_le (p := polynomialOf a) (q := polynomialOf b)
    omega
  rw [value (polynomialOf a) _ (polynomialOf_coeff a) (by omega),
    value (polynomialOf b) _ (polynomialOf_coeff b) (by omega),
    value _ _ (fun k => (convolution_eq a b k).symm) product, eval_mul]

theorem transform_convolution {m : ℕ} (le : m ≤ 20) (avx512 avx512' registered registered' : Bool) (a b : List Gf64)
    (someA : 0 < a.length) (someB : 0 < b.length) (room : a.length + b.length - 1 ≤ 2 ^ m) :
    ∀ i < 2 ^ m, gf64_addfft64_inv_recursive_scratch
      (fun i => gf64_addfft64_fwd_recursive_scratch (fun i => a.getD i 0) (2 ^ m) avx512 registered i *
        gf64_addfft64_fwd_recursive_scratch (fun i => b.getD i 0) (2 ^ m) avx512 registered i)
      (2 ^ m) avx512' registered' i = convolution a b i :=
  inv_coefficients le avx512' registered' _ _ fun i inside => by
    rw [fwd_value le avx512 registered _ inside, fwd_value le avx512 registered _ inside]
    exact weigh_convolution a b someA someB room _

/-- For every power of two: the values at all points of the subspace in a fixed order, the
coefficients again from the values, and products of polynomials from products of values. -/
theorem transform_evaluates (m : ℕ) (le : m ≤ 20) (avx512 avx512' registered registered' : Bool) :
    Set.BijOn (transformPoint m) (Set.Iio (2 ^ m)) (cantorSubspace m) ∧
    (∀ arr, ∀ i < 2 ^ m, gf64_addfft64_fwd_recursive_scratch arr (2 ^ m) avx512 registered i =
      ∑ k ∈ Finset.range (2 ^ m), arr k * transformPoint m i ^ k) ∧
    (∀ arr, ∀ i < 2 ^ m, gf64_addfft64_inv_recursive_scratch
      (gf64_addfft64_fwd_recursive_scratch arr (2 ^ m) avx512 registered) (2 ^ m) avx512' registered' i = arr i) ∧
    ∀ a b : List Gf64, 0 < a.length → 0 < b.length → a.length + b.length - 1 ≤ 2 ^ m →
      ∀ i < 2 ^ m, gf64_addfft64_inv_recursive_scratch
        (fun i => gf64_addfft64_fwd_recursive_scratch (fun i => a.getD i 0) (2 ^ m) avx512 registered i *
          gf64_addfft64_fwd_recursive_scratch (fun i => b.getD i 0) (2 ^ m) avx512 registered i)
        (2 ^ m) avx512' registered' i = convolution a b i :=
  ⟨transformPoint_bijOn le, fun arr _ inside => fwd_value le avx512 registered arr inside,
    fun arr => inv_coefficients le avx512' registered' _ arr fun _ inside =>
      fwd_value le avx512 registered arr inside,
    fun a b someA someB room => transform_convolution le avx512 avx512' registered registered' a b someA someB room⟩

/-- Four values are restored from the transform of four coefficients, and two lines are multiplied. -/
theorem transform_evaluates_four :
    Set.BijOn (transformPoint 2) (Set.Iio (2 ^ 2)) (cantorSubspace 2) ∧
      (∀ i < 2 ^ 2, gf64_addfft64_inv_recursive_scratch
        (gf64_addfft64_fwd_recursive_scratch gf64OfNat (2 ^ 2) true false) (2 ^ 2) true false i =
          gf64OfNat i) ∧
      ∀ i < 2 ^ 2, gf64_addfft64_inv_recursive_scratch
        (fun i => gf64_addfft64_fwd_recursive_scratch (fun i => [3, 1].getD i 0) (2 ^ 2) true false i *
          gf64_addfft64_fwd_recursive_scratch (fun i => [2, 5].getD i 0) (2 ^ 2) true false i)
        (2 ^ 2) true false i = convolution [3, 1] [2, 5] i := by
  obtain ⟨points, -, restores, multiplies⟩ := transform_evaluates 2 (by decide) true false true false
  exact ⟨points, restores gf64OfNat, multiplies [3, 1] [2, 5] (by decide) (by decide) (by decide)⟩

/-- The function multiplies, whatever length is asked for. -/
theorem poly_mul_recursive_eq (a b : List Gf64) (out_len : ℕ) (avx512 registered : Bool)
    (room : max (a.length + b.length - 1) out_len ≤ GF64_HQC_MAX_LM_N) :
    gf64_addfft64_poly_mul_recursive_scratch a b out_len avx512 registered =
      (List.range out_len).map (convolution a b) := by
  rw [gf64_addfft64_poly_mul_recursive_scratch]
  split
  case isTrue empty =>
    refine List.ext_getElem (by simp) fun i inside _ => ?_
    rw [List.length_replicate] at inside
    rw [List.getElem_replicate, List.getElem_map, List.getElem_range]
    exact (convolution_nil a b i (by omega)).symm
  case isFalse more =>
    have large := Nat.le_pow_clog (by omega : 1 < 2) (max (a.length + b.length - 1) out_len)
    have few : Nat.clog 2 (max (a.length + b.length - 1) out_len) ≤ 20 :=
      Nat.clog_le_of_le_pow room
    have whole : min (max (a.length + b.length - 1) out_len) out_len = out_len :=
      min_eq_right (le_max_right _ _)
    simp only
    rw [whole, Nat.sub_self, List.replicate_zero, List.append_nil]
    refine List.map_congr_left fun i member => ?_
    refine transform_convolution few avx512 avx512 registered registered a b (by omega) (by omega) (by omega) i ?_
    have inside := List.mem_range.mp member
    omega

end Par3
