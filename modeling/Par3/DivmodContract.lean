import Par3.PolyDivmod
import Par3.Foundations.FallibleLoops

/-!
# What division returns

Both ways to divide leave the same arrays: the quotient, and the remainder with zeros up to the
length of the dividend. The arena only has to hold what one call takes.
-/

namespace Par3

open Polynomial PolynomialDivision

/-! ## Arrays and polynomials -/

theorem firstTerms_eq {f : ℕ → Gf64} {count : ℕ} {p : Gf64[X]}
    (same : ∀ k < count, f k = p.coeff k) (beyond : ∀ k ≥ count, p.coeff k = 0) :
    firstTerms f count = p := by
  ext1 k
  rw [firstTerms_coeff]
  split
  case isTrue inside => exact same k inside
  case isFalse outside => exact (beyond k (not_lt.mp outside)).symm

theorem firstTerms_degree_lt (f : ℕ → Gf64) (count : ℕ) : (firstTerms f count).degree < count := by
  refine (degree_lt_iff_coeff_zero _ _).mpr fun k beyond => ?_
  rw [firstTerms_coeff, if_neg (not_lt.mpr (mod_cast beyond))]

theorem firstTerms_natDegree_le (f : ℕ → Gf64) (degree : ℕ) :
    (firstTerms f (degree + 1)).natDegree ≤ degree := by
  refine natDegree_le_iff_coeff_eq_zero.mpr fun k beyond => ?_
  rw [firstTerms_coeff, if_neg (by omega)]

theorem firstTerms_degree_eq {f : ℕ → Gf64} {degree : ℕ} (lead : f degree ≠ 0) :
    (firstTerms f (degree + 1)).degree = degree := by
  refine le_antisymm (natDegree_le_iff_degree_le.mp (firstTerms_natDegree_le f degree)) ?_
  refine le_degree_of_ne_zero ?_
  rwa [firstTerms_coeff, if_pos (Nat.lt_succ_self degree)]

theorem firstTerms_succ (f : ℕ → Gf64) (count : ℕ) :
    firstTerms f (count + 1) = firstTerms f count + C (f count) * X ^ count :=
  Finset.sum_range_succ _ _

/-- Zeros at the end add nothing. -/
theorem firstTerms_more {f : ℕ → Gf64} {count more : ℕ} (le : count ≤ more)
    (zeros : ∀ k < more, count ≤ k → f k = 0) : firstTerms f more = firstTerms f count := by
  refine firstTerms_eq (fun k inside => ?_) fun k beyond => ?_
  · rw [firstTerms_coeff]
    split
    case isTrue => rfl
    case isFalse outside => exact zeros k inside (not_lt.mp outside)
  · rw [firstTerms_coeff, if_neg (by omega)]

theorem firstTerms_reflect (f : ℕ → Gf64) (degree : ℕ) :
    firstTerms (fun i => f (degree - i)) (degree + 1) = reflect degree (firstTerms f (degree + 1)) := by
  ext1 k
  rw [firstTerms_coeff, coeff_reflect]
  split
  case isTrue inside =>
    rw [revAt_le (by omega), firstTerms_coeff, if_pos (by omega)]
  case isFalse outside =>
    rw [revAt_eq_self_of_lt (by omega), firstTerms_coeff, if_neg outside]

/-- The first coefficients of a longer array. -/
theorem firstTerms_sameBelow (f : ℕ → Gf64) {n count : ℕ} (le : n ≤ count) :
    SameBelow n (firstTerms f n) (firstTerms f count) :=
  sameBelow_iff.mpr fun k inside => by
    rw [firstTerms_coeff, firstTerms_coeff, if_pos inside, if_pos (inside.trans_le le)]

theorem polynomialOf_wordList (a : ℕ → Gf64) (count : ℕ) :
    polynomialOf (wordList a count) = firstTerms a count := by
  ext1 k
  rw [polynomialOf_coeff, firstTerms_coeff, wordList, List.getD_eq_getElem?_getD,
    List.getElem?_map]
  by_cases inside : k < count
  · rw [List.getElem?_range inside, if_pos inside]
    rfl
  · rw [List.getElem?_eq_none (by rw [List.length_range]; omega), if_neg inside]
    rfl

theorem wordList_length (a : ℕ → Gf64) (count : ℕ) : (wordList a count).length = count := by
  rw [wordList, List.length_map, List.length_range]

theorem written_range (out value : ℕ → Gf64) (count : ℕ) :
    written out ((List.range count).map value) = fun i => if i < count then value i else out i := by
  funext i
  rw [written, List.getD_eq_getElem?_getD, List.getElem?_map]
  by_cases inside : i < count
  · rw [List.getElem?_range inside, if_pos inside]
    rfl
  · rw [List.getElem?_eq_none (by rw [List.length_range]; omega), if_neg inside]
    rfl

theorem product_len (len_a len_b : ℕ) (fits : len_a + len_b ≤ SIZE_MAX + 1) :
    ∃ out_len, gf64_poly_product_len len_a len_b = .ok out_len ∧
      (0 < len_a → 0 < len_b → out_len = len_a + len_b - 1) := by
  rw [gf64_poly_product_len]
  split
  case isTrue none => exact ⟨0, rfl, by omega⟩
  case isFalse some =>
    rw [if_neg (by omega)]
    exact ⟨_, rfl, fun _ _ => rfl⟩

/-- The product is written to the output, up to the sum of the degrees. -/
theorem mulInto_eq (kernels : Kernels) (out a : ℕ → Gf64) (deg_a : ℕ) (b : ℕ → Gf64) (deg_b : ℕ)
    (fits : deg_a + deg_b + 1 ≤ SIZE_MAX) :
    mulInto kernels out a deg_a b deg_b = some fun i =>
      if i ≤ deg_a + deg_b then (firstTerms a (deg_a + 1) * firstTerms b (deg_b + 1)).coeff i
      else out i := by
  obtain ⟨out_len, known, length⟩ :=
    product_len (deg_a + 1) (deg_b + 1) (by omega)
  rw [mulInto, gf64_poly_mul, wordList_length, wordList_length, known, FallibleLoops.ok_bind,
    gf64_poly_mul_internal_eq, length (Nat.succ_pos _) (Nat.succ_pos _)]
  refine congrArg some ?_
  rw [written_range]
  funext i
  refine if_congr (by omega) ?_ rfl
  rw [convolution_eq, polynomialOf_wordList, polynomialOf_wordList]

theorem mulPaddedInto_eq (kernels : Kernels) (out a : ℕ → Gf64) (len_a : ℕ) (b : ℕ → Gf64)
    (len_b out_len : ℕ) (fits : len_a + len_b ≤ SIZE_MAX + 1) :
    mulPaddedInto kernels out a len_a b len_b out_len = some fun i =>
      if i < out_len then (firstTerms a len_a * firstTerms b len_b).coeff i else out i := by
  obtain ⟨length, known, -⟩ := product_len len_a len_b fits
  rw [mulPaddedInto, gf64_poly_mul_padded, wordList_length, wordList_length, known,
    FallibleLoops.ok_bind, gf64_poly_mul_internal_eq]
  refine congrArg some ?_
  rw [written_range]
  funext i
  rw [convolution_eq, polynomialOf_wordList, polynomialOf_wordList]

/-! ## Room in the arena -/

/-- So many words may still be taken. -/
def HasRoom (arena : Option Arena) (words : ℕ) : Prop :=
  ∀ own ∈ arena, own.used + words ≤ own.cap ∧ own.cap ≤ SIZE_MAX

theorem hasRoom_none (words : ℕ) : HasRoom none words := fun _ member => nomatch member

theorem HasRoom.mono {arena : Option Arena} {words fewer : ℕ} (room : HasRoom arena words)
    (le : fewer ≤ words) : HasRoom arena fewer :=
  fun own member => ⟨by have := (room own member).1; omega, (room own member).2⟩

theorem push_room {arena : Arena} {words : ℕ} (room : arena.used + words ≤ arena.cap)
    (memory : arena.cap ≤ SIZE_MAX) :
    gf64_arena_push arena words = some { arena with used := arena.used + words } := by
  rw [gf64_arena_push, if_neg]
  rw [Nat.mod_eq_of_lt (by omega)]
  omega

theorem pushes_room (sizes : List ℕ) (arena : Arena) (rest : ℕ)
    (room : arena.used + (sizes.sum + rest) ≤ arena.cap) (memory : arena.cap ≤ SIZE_MAX) :
    sizes.foldlM gf64_arena_push arena = some { arena with used := arena.used + sizes.sum } := by
  induction sizes generalizing arena with
  | nil => rfl
  | cons size sizes ih =>
    rw [List.sum_cons] at room ⊢
    have next := ih { arena with used := arena.used + size }
      (by dsimp only; omega) memory
    rw [Nat.add_assoc] at next
    rw [List.foldlM_cons, push_room (by omega) memory]
    exact next

/-- The buffers of a call are taken where there is room, and what is left may be taken later. -/
theorem takeBuffers_room {arena : Option Arena} (sizes : List ℕ) (rest : ℕ)
    (room : HasRoom arena (sizes.sum + rest)) :
    ∃ left, takeBuffers arena sizes = some left ∧ HasRoom left rest := by
  cases arena with
  | none => exact ⟨none, rfl, hasRoom_none rest⟩
  | some own =>
    obtain ⟨fits, memory⟩ := room own rfl
    rw [takeBuffers, pushes_room sizes own rest fits memory]
    refine ⟨_, rfl, fun left same => ?_⟩
    cases same
    exact ⟨by dsimp only; omega, memory⟩

/-! ## The reciprocal -/

section Reciprocal

variable {kernels : Kernels} {G : Gf64[X]} {g_buf : ℕ → Gf64} {n : ℕ}

theorem square_firstTerms (f : ℕ → Gf64) {m : ℕ} (pos : 0 < m) {r_sq : ℕ → Gf64}
    (square : ∀ i ≤ m - 1 + (m - 1), r_sq i = (firstTerms f m * firstTerms f m).coeff i) :
    firstTerms r_sq (2 * m - 2 + 1) = firstTerms f m * firstTerms f m :=
  firstTerms_eq (fun k inside => square k (by omega)) fun k beyond =>
    mul_firstTerms_coeff_beyond f f (by omega)

/-- Each round doubles the precision, and the last one reaches the length that is wanted. -/
theorem newtonLoop_reciprocal (enough : ∀ count ≤ n, SameBelow count (firstTerms g_buf count) G)
    (fits : n ≤ SIZE_MAX / 3) {rounds m : ℕ} {buffers : NewtonBuffers} (pos : 0 < m)
    (le : m ≤ n) (room : n - m < rounds)
    (known : SameBelow m (G * firstTerms buffers.result m) 1) :
    ∃ h, newtonLoop kernels g_buf n rounds m buffers = some h ∧
      SameBelow n (G * firstTerms h n) 1 := by
  induction rounds generalizing m buffers with
  | zero => omega
  | succ rounds ih =>
    rw [newtonLoop]
    split
    case isFalse last =>
      obtain rfl : m = n := by omega
      exact ⟨_, rfl, known⟩
    case isTrue more =>
      dsimp only
      generalize precision : (if 2 * m < n then 2 * m else n) = m_new
      have bounds : m < m_new ∧ m_new ≤ 2 * m ∧ m_new ≤ n := by split at precision <;> omega
      have one : m - 1 + 1 = m := by omega
      have width : m_new - 1 + 1 = m_new := by omega
      rw [mulInto_eq _ _ _ _ _ _ (by omega), one]
      simp only [Option.bind_eq_bind, Option.bind_some]
      rw [mulInto_eq _ _ _ _ _ _ (by omega), width,
        square_firstTerms buffers.result pos fun i inside => if_pos inside]
      simp only [Option.bind_some]
      refine ih (by omega) bounds.2.2 (by omega) ?_
      refine reciprocal_step known bounds.2.1 (enough m_new bounds.2.2) ?_
      refine sameBelow_iff.mpr fun k inside => ?_
      rw [firstTerms_coeff, if_pos inside]
      dsimp only
      rw [if_pos inside, if_pos (by omega)]

/-- For every length, the reciprocal multiplies with the polynomial to one. -/
theorem gf64_poly_invmod_scratch_reciprocal (kernels : Kernels) {g : ℕ → Gf64} (nonzero : g 0 ≠ 0)
    (deg_g : ℕ) {n : ℕ} (fits : n ≤ SIZE_MAX / 3) (result : ℕ → Gf64) {arena : Option Arena}
    (room : HasRoom arena (6 * n)) :
    ∃ h, gf64_poly_invmod_scratch kernels g deg_g n result arena = some h ∧
      SameBelow n (firstTerms g (deg_g + 1) * firstTerms h n) 1 := by
  rw [gf64_poly_invmod_scratch]
  split
  case isTrue none => exact ⟨result, rfl, sameBelow_iff.mpr fun k inside => by omega⟩
  case isFalse some =>
    rw [if_neg (by omega)]
    obtain ⟨left, taken, -⟩ := takeBuffers_room [n, 2 * n, 3 * n] 0
      (room.mono (by simp only [List.sum_cons, List.sum_nil]; omega))
    rw [taken]
    refine newtonLoop_reciprocal (fun count le => ?_) fits Nat.one_pos (by omega) (by omega) ?_
    · refine sameBelow_iff.mpr fun k inside => ?_
      rw [firstTerms_coeff, firstTerms_coeff, if_pos inside]
      exact if_congr (by split <;> omega) rfl rfl
    · refine sameBelow_iff.mpr fun k inside => ?_
      obtain rfl : k = 0 := by omega
      rw [mul_coeff_zero, firstTerms_coeff, firstTerms_coeff, if_pos (Nat.succ_pos _),
        if_pos Nat.one_pos, coeff_one_zero]
      dsimp only
      rw [Function.update_self]
      exact mul_inv_cancel₀ nonzero

end Reciprocal

/-! ## Long division -/

section LongDivision

variable {g : ℕ → Gf64} {deg_g : ℕ}

/-- One turn subtracts a multiple of the divisor. -/
theorem eliminateCoefficient_remainder (g : ℕ → Gf64) (deg_g : ℕ) (lead_inv : Gf64) (state : (ℕ → Gf64) × (ℕ → Gf64))
    (step k : ℕ) :
    (eliminateCoefficient g deg_g lead_inv state (deg_g + step)).2 k = state.2 k +
      (C (state.2 (deg_g + step) * lead_inv) * X ^ step * firstTerms g (deg_g + 1)).coeff k := by
  have shift : deg_g + step - deg_g = step := Nat.add_sub_cancel_left _ _
  have multiple (coeff : Gf64) : C coeff * X ^ step * firstTerms g (deg_g + 1) =
      X ^ step * firstTerms (fun j => coeff * g j) (deg_g + 1) := by
    rw [firstTerms, firstTerms, Finset.mul_sum, Finset.mul_sum]
    refine Finset.sum_congr rfl fun j _ => ?_
    rw [C_mul]
    ring
  rw [eliminateCoefficient]
  simp only [shift]
  generalize state.2 (deg_g + step) * lead_inv = coeff
  split
  case isTrue some =>
    rw [foldl_xorAt, multiple, firstTerms_shift_coeff]
    simp only [Nat.add_comm step]
  case isFalse none =>
    rw [not_not.mp none, C_0, zero_mul, zero_mul, coeff_zero, add_zero]

/-- A loop that has eliminated so many coefficients. -/
theorem eliminate_split (lead : g deg_g ≠ 0) (count : ℕ) (state : (ℕ → Gf64) × (ℕ → Gf64)) :
    ∃ last, (List.range' deg_g count).reverse.foldl (eliminateCoefficient g deg_g (g deg_g)⁻¹) state =
        last ∧
      firstTerms state.2 (deg_g + count) =
        firstTerms g (deg_g + 1) * firstTerms last.1 count + firstTerms last.2 deg_g ∧
      (∀ i ≥ count, last.1 i = state.1 i) ∧
      (∀ i, deg_g ≤ i → i < deg_g + count → last.2 i = 0) ∧
      ∀ i ≥ deg_g + count, last.2 i = state.2 i := by
  induction count generalizing state with
  | zero =>
    refine ⟨state, rfl, ?_, fun _ _ => rfl, fun i above below => by omega, fun _ _ => rfl⟩
    rw [Nat.add_zero, firstTerms, firstTerms, firstTerms, Finset.sum_range_zero, mul_zero, zero_add]
  | succ count ih =>
    have turn := eliminateCoefficient_remainder g deg_g (g deg_g)⁻¹ state count
    generalize coefficient : state.2 (deg_g + count) * (g deg_g)⁻¹ = coeff at turn
    have placed : (eliminateCoefficient g deg_g (g deg_g)⁻¹ state (deg_g + count)).1 =
        Function.update state.1 count coeff := by
      rw [eliminateCoefficient, coefficient, Nat.add_sub_cancel_left]
    rw [List.range'_concat, List.reverse_append, List.reverse_singleton, List.singleton_append,
      List.foldl_cons, Nat.one_mul]
    generalize eliminateCoefficient g deg_g (g deg_g)⁻¹ state (deg_g + count) = next at turn placed
    obtain ⟨last, run, split, kept, zeros, beyond⟩ := ih next
    have multiple (k : ℕ) : (C coeff * X ^ count * firstTerms g (deg_g + 1)).coeff (count + k) =
        coeff * if k < deg_g + 1 then g k else 0 := by
      rw [mul_assoc, coeff_C_mul, coeff_X_pow_mul', if_pos (Nat.le_add_right _ _),
        Nat.add_sub_cancel_left, firstTerms_coeff]
    have eliminated : next.2 (deg_g + count) = 0 := by
      rw [turn, Nat.add_comm deg_g, multiple, if_pos (Nat.lt_succ_self _), ← coefficient,
        mul_assoc, inv_mul_cancel₀ lead, mul_one, Nat.add_comm deg_g, CharTwo.add_self_eq_zero]
    have above (i : ℕ) (outside : i ≥ deg_g + (count + 1)) : next.2 i = state.2 i := by
      obtain ⟨k, rfl⟩ := Nat.exists_eq_add_of_le (by omega : count ≤ i)
      rw [turn, multiple, if_neg (by omega), mul_zero, add_zero]
    have before (k : ℕ) : state.2 k =
        next.2 k + (C coeff * X ^ count * firstTerms g (deg_g + 1)).coeff k := by
      rw [turn, add_assoc, CharTwo.add_self_eq_zero, add_zero]
    have difference : firstTerms state.2 (deg_g + (count + 1)) =
        firstTerms next.2 (deg_g + count) + C coeff * X ^ count * firstTerms g (deg_g + 1) := by
      have degree : ∀ k ≥ deg_g + count + 1,
          (C coeff * X ^ count * firstTerms g (deg_g + 1)).coeff k = 0 := by
        intro k outside
        obtain ⟨k, rfl⟩ := Nat.exists_eq_add_of_le (by omega : count ≤ k)
        rw [multiple, if_neg (by omega), mul_zero]
      rw [← Nat.add_assoc, ← firstTerms_eq (fun k _ => rfl) degree,
        firstTerms_congr (g := fun k => next.2 k + _) fun k _ => before k, firstTerms_add,
        firstTerms_succ next.2, eliminated, C_0, zero_mul, add_zero]
    refine ⟨last, run, ?_, ?_, ?_, ?_⟩
    · rw [difference, split, firstTerms_succ last.1, kept count le_rfl, placed, Function.update_self]
      ring
    · intro i outside
      rw [kept i (by omega), placed, Function.update_of_ne (by omega)]
    · intro i inside below
      by_cases here : i = deg_g + count
      · rw [here, beyond _ le_rfl, eliminated]
      · exact zeros i inside (by omega)
    · intro i outside
      rw [beyond i (by omega), above i outside]

end LongDivision

/-! ## Quotient and remainder -/

section Division

variable {f : ℕ → Gf64} {deg_f : ℕ} {g : ℕ → Gf64} {deg_g : ℕ} {q r : ℕ → Gf64}

/-- The arrays after a division: quotient and remainder, and zeros in the place of the coefficients
of the dividend that are gone. -/
noncomputable def divided (f : ℕ → Gf64) (deg_f : ℕ) (g : ℕ → Gf64) (deg_g : ℕ) (q r : ℕ → Gf64) :
    (ℕ → Gf64) × (ℕ → Gf64) :=
  (fun i => if i ≤ deg_f - deg_g then
      (firstTerms f (deg_f + 1) / firstTerms g (deg_g + 1)).coeff i else q i,
    fun i => if i < deg_g then (firstTerms f (deg_f + 1) % firstTerms g (deg_g + 1)).coeff i
      else if i ≤ deg_f then 0 else r i)

theorem divisor_nonzero (lead : g deg_g ≠ 0) : firstTerms g (deg_g + 1) ≠ 0 := fun zero => by
  have degree := firstTerms_degree_eq lead
  rw [zero, degree_zero] at degree
  exact nomatch degree

theorem not_zero_divisor (lead : g deg_g ≠ 0) : ¬ (deg_g = 0 ∧ g 0 = 0) := by
  rintro ⟨rfl, zero⟩
  exact lead zero

/-- The remainder has as many coefficients as the degree of the divisor. -/
theorem mod_coeff_beyond (lead : g deg_g ≠ 0) {k : ℕ} (beyond : k ≥ deg_g) :
    (firstTerms f (deg_f + 1) % firstTerms g (deg_g + 1)).coeff k = 0 := by
  have small := degree_mod_lt (firstTerms f (deg_f + 1)) (divisor_nonzero lead)
  rw [firstTerms_degree_eq lead] at small
  exact coeff_eq_zero_of_degree_lt (small.trans_le (Nat.cast_le.mpr beyond))

theorem div_coeff_beyond (lead : g deg_g ≠ 0) {k : ℕ} (beyond : k > deg_f - deg_g) :
    (firstTerms f (deg_f + 1) / firstTerms g (deg_g + 1)).coeff k = 0 := by
  refine coeff_eq_zero_of_natDegree_lt (lt_of_le_of_lt ?_ beyond)
  have bound := natDegree_div_le (divisor_nonzero lead) (firstTerms_natDegree_le f deg_f)
  rwa [natDegree_eq_of_degree_eq_some (firstTerms_degree_eq lead)] at bound

theorem divided_quotient (lead : g deg_g ≠ 0) :
    firstTerms (divided f deg_f g deg_g q r).1 (deg_f - deg_g + 1) =
      firstTerms f (deg_f + 1) / firstTerms g (deg_g + 1) :=
  firstTerms_eq (fun _ inside => if_pos (Nat.lt_succ_iff.mp inside)) fun _ beyond =>
    div_coeff_beyond lead beyond

theorem divided_remainder (lead : g deg_g ≠ 0) :
    firstTerms (divided f deg_f g deg_g q r).2 deg_g =
      firstTerms f (deg_f + 1) % firstTerms g (deg_g + 1) :=
  firstTerms_eq (fun _ inside => if_pos inside) fun _ beyond => mod_coeff_beyond lead beyond

theorem shortDividend_eq (lead : g deg_g ≠ 0) (short : deg_f < deg_g) :
    shortDividend f deg_f deg_g q r = divided f deg_f g deg_g q r := by
  have smaller : (firstTerms f (deg_f + 1)).degree < (firstTerms g (deg_g + 1)).degree := by
    rw [firstTerms_degree_eq lead]
    exact (firstTerms_degree_lt f _).trans_le (Nat.cast_le.mpr short)
  have nonzero := divisor_nonzero lead
  rw [shortDividend, divided, (Polynomial.div_eq_zero_iff nonzero).mpr smaller,
    (mod_eq_self_iff nonzero).mpr smaller]
  refine Prod.ext ?_ ?_
  · funext i
    simp only [Function.update_apply, coeff_zero]
    exact if_congr (by omega) rfl rfl
  · funext i
    simp only [firstTerms_coeff]
    by_cases inside : i ≤ deg_f
    · rw [if_pos inside, if_pos (by omega), if_pos (by omega)]
    · rw [if_neg inside]
      by_cases below : i < deg_g
      · rw [if_pos (by omega), if_pos below, if_neg (by omega)]
      · rw [if_neg (by omega), if_neg below, if_neg inside]

/-- What long division leaves. -/
theorem gf64_poly_divmod_schoolbook_eq (lead : g deg_g ≠ 0) :
    gf64_poly_divmod_schoolbook f deg_f g deg_g q r = some (divided f deg_f g deg_g q r) := by
  rw [gf64_poly_divmod_schoolbook, if_neg (not_zero_divisor lead)]
  split
  case isTrue short => rw [shortDividend_eq lead short]
  case isFalse long =>
    obtain ⟨last, run, split, kept, zeros, beyond⟩ := eliminate_split lead (deg_f - deg_g + 1)
      (fun i => if i < deg_f - deg_g + 1 then 0 else q i, fun i => if i ≤ deg_f then f i else r i)
    have width : deg_g + (deg_f - deg_g + 1) = deg_f + 1 := by omega
    dsimp only at split kept beyond ⊢
    rw [width, firstTerms_congr (g := f) fun k inside => if_pos (Nat.lt_succ_iff.mp inside)] at split
    have small : (firstTerms last.2 deg_g).degree < (firstTerms g (deg_g + 1)).degree := by
      rw [firstTerms_degree_eq lead]
      exact firstTerms_degree_lt last.2 deg_g
    obtain ⟨quotient, remainder⟩ := eq_div_and_mod split small
    rw [run, divided, ← quotient, ← remainder]
    refine congrArg some (Prod.ext ?_ ?_)
    · funext i
      dsimp only
      rw [firstTerms_coeff]
      by_cases inside : i ≤ deg_f - deg_g
      · rw [if_pos inside, if_pos (by omega)]
      · rw [if_neg inside, kept i (by omega), if_neg (by omega)]
    · funext i
      dsimp only
      rw [firstTerms_coeff]
      by_cases inside : i < deg_g
      · rw [if_pos inside, if_pos inside]
      · rw [if_neg inside]
        by_cases gone : i ≤ deg_f
        · rw [if_pos gone, zeros i (by omega) (by omega)]
        · rw [if_neg gone, beyond i (by omega), if_neg gone]

/-- So many words a division takes from the arena. -/
def divmodWords (deg_f deg_g : ℕ) : ℕ :=
  if deg_f < deg_g then 0
  else if deg_f - deg_g + 1 < GF64_DIVMOD_NEWTON_MIN then 0
  else 9 * (deg_f - deg_g + 1) + (deg_g + 1) + (deg_f + 1)

/-- What division by the reciprocal leaves. -/
theorem gf64_poly_divmod_scratch_eq (kernels : Kernels) (lead : g deg_g ≠ 0)
    (fits : deg_f + 1 ≤ SIZE_MAX / 3) {arena : Option Arena}
    (room : HasRoom arena (divmodWords deg_f deg_g)) :
    gf64_poly_divmod_scratch kernels f deg_f g deg_g q r arena =
      some (divided f deg_f g deg_g q r) := by
  rw [gf64_poly_divmod_scratch, if_neg (not_zero_divisor lead)]
  split
  case isTrue short => rw [shortDividend_eq lead short]
  case isFalse long =>
    dsimp only
    split
    case isTrue few => exact gf64_poly_divmod_schoolbook_eq lead
    case isFalse many =>
      generalize quotientDegree : deg_f - deg_g = k at many
      rw [divmodWords, if_neg long, quotientDegree, if_neg many] at room
      obtain ⟨left, taken, more⟩ := takeBuffers_room [k + 1, deg_g + 1, k + 1, k + 1, deg_f + 1]
        (6 * (k + 1)) (room.mono (by simp only [List.sum_cons, List.sum_nil]; omega))
      obtain ⟨inv, inverse, known⟩ := gf64_poly_invmod_scratch_reciprocal kernels
        (g := fun i => g (deg_g - i)) (by rwa [Nat.sub_zero]) deg_g (by omega : k + 1 ≤ SIZE_MAX / 3)
        (fun _ => 0) more
      rw [taken]
      simp only [Option.bind_eq_bind, Option.bind_some]
      rw [inverse]
      simp only [Option.bind_some]
      rw [mulPaddedInto_eq _ _ _ _ _ _ _ (by omega)]
      simp only [Option.bind_some]
      rw [mulInto_eq _ _ _ _ _ _ (by omega)]
      simp only [Option.bind_some]
      have quotient {i : ℕ} (inside : i ≤ k) :
          (firstTerms (fun i => f (deg_f - i)) (k + 1) * firstTerms inv (k + 1)).coeff (k - i) =
            (firstTerms f (deg_f + 1) / firstTerms g (deg_g + 1)).coeff i := by
        rw [firstTerms_reflect, ← quotientDegree] at known
        have cut := firstTerms_sameBelow (fun i => f (deg_f - i)) (by omega : k + 1 ≤ deg_f + 1)
        rw [firstTerms_reflect, ← quotientDegree] at cut
        rw [← quotientDegree] at inside ⊢
        exact (div_coeff_of_reciprocal (firstTerms_natDegree_le f deg_f) (firstTerms_degree_eq lead)
          (not_lt.mp long) known cut inside).symm
      have whole : firstTerms (fun i => if i < k + 1 then if k - i < k + 1 then
          (firstTerms (fun i => f (deg_f - i)) (k + 1) * firstTerms inv (k + 1)).coeff (k - i) else 0
          else q i) (k + 1) = firstTerms f (deg_f + 1) / firstTerms g (deg_g + 1) :=
        firstTerms_eq (fun i inside => by
          rw [if_pos inside, if_pos (by omega), quotient (Nat.lt_succ_iff.mp inside)])
          fun i outside => div_coeff_beyond lead (by omega)
      rw [whole]
      refine congrArg some (Prod.ext ?_ ?_)
      · funext i
        dsimp only [divided]
        rw [quotientDegree]
        by_cases inside : i ≤ k
        · rw [if_pos (by omega), if_pos (by omega), if_pos inside, quotient inside]
        · rw [if_neg (by omega), if_neg inside]
      · funext i
        dsimp only [divided]
        by_cases inside : i < deg_g
        · have dividend := congrArg (coeff · i)
            (EuclideanDomain.div_add_mod (firstTerms f (deg_f + 1)) (firstTerms g (deg_g + 1)))
          simp only [coeff_add] at dividend
          rw [firstTerms_coeff, if_pos (by omega)] at dividend
          rw [if_neg (by omega), if_pos inside, if_pos (by omega), if_pos (by omega), if_pos inside,
            ← dividend, add_right_comm, CharTwo.add_self_eq_zero, zero_add]
        · rw [if_neg inside, if_neg inside]
          by_cases gone : i ≤ deg_f
          · rw [if_pos ⟨not_lt.mp inside, gone⟩, if_pos gone]
          · rw [if_neg fun both => gone both.2, if_neg gone, if_neg gone]

end Division

/-- For every dividend in memory and every divisor with a leading coefficient, whatever it is, both
ways to divide return the same arrays, and these are a quotient and a remainder of a smaller degree.
The reciprocal of the reversed divisor is right up to every length. -/
theorem divisions_agree (kernels : Kernels) (f : ℕ → Gf64) (deg_f : ℕ) (g : ℕ → Gf64) (deg_g : ℕ)
    (lead : g deg_g ≠ 0) (memory : deg_f + 1 ≤ SIZE_MAX / 8) (q r : ℕ → Gf64) (arena : Option Arena)
    (room : HasRoom arena (divmodWords deg_f deg_g)) :
    (∃ quotient remainder,
      gf64_poly_divmod_scratch kernels f deg_f g deg_g q r arena = some (quotient, remainder) ∧
      gf64_poly_divmod_schoolbook f deg_f g deg_g q r = some (quotient, remainder) ∧
      firstTerms f (deg_f + 1) =
        firstTerms g (deg_g + 1) * firstTerms quotient (deg_f - deg_g + 1) +
          firstTerms remainder deg_g ∧
      (firstTerms remainder deg_g).degree < (firstTerms g (deg_g + 1)).degree ∧
      ∀ i, deg_g ≤ i → i ≤ deg_f → remainder i = 0) ∧
    ∀ n ≤ SIZE_MAX / 3, ∀ result spare, HasRoom spare (6 * n) →
      ∃ h, gf64_poly_invmod_scratch kernels (fun i => g (deg_g - i)) deg_g n result spare = some h ∧
        X ^ n ∣ firstTerms (fun i => g (deg_g - i)) (deg_g + 1) * firstTerms h n - 1 := by
  refine ⟨⟨_, _, gf64_poly_divmod_scratch_eq kernels lead (memory.trans (by decide)) room,
    gf64_poly_divmod_schoolbook_eq lead, ?_, ?_, ?_⟩, ?_⟩
  · have split := EuclideanDomain.div_add_mod (firstTerms f (deg_f + 1)) (firstTerms g (deg_g + 1))
    rw [← divided_quotient (q := q) (r := r) lead, ← divided_remainder (q := q) (r := r) lead] at split
    exact split.symm
  · have small := degree_mod_lt (firstTerms f (deg_f + 1)) (divisor_nonzero lead)
    rwa [← divided_remainder (q := q) (r := r) lead] at small
  · intro i above inside
    exact (if_neg (not_lt.mpr above)).trans (if_pos inside)
  · intro n fits result spare enough
    exact gf64_poly_invmod_scratch_reciprocal kernels (by rwa [Nat.sub_zero]) deg_g fits result enough

/-- A quotient of 100 coefficients, with an arena that is just large enough. -/
theorem divisions_agree_hundred : ∃ quotient remainder,
    gf64_poly_divmod_scratch ⟨false, true⟩ (fun _ => 1) 100 (fun _ => ⟨3⟩) 1 (fun _ => 0) (fun _ => 0)
      (some ⟨1003, 0⟩) = some (quotient, remainder) ∧
    gf64_poly_divmod_schoolbook (fun _ => 1) 100 (fun _ => ⟨3⟩) 1 (fun _ => 0) (fun _ => 0) =
      some (quotient, remainder) ∧
    firstTerms (fun _ => 1) 101 =
      firstTerms (fun _ => ⟨3⟩) 2 * firstTerms quotient 100 + firstTerms remainder 1 ∧
    (firstTerms remainder 1).degree < (firstTerms (fun _ => ⟨3⟩) 2).degree ∧
    ∀ i, 1 ≤ i → i ≤ 100 → remainder i = 0 :=
  (divisions_agree ⟨false, true⟩ (fun _ => 1) 100 (fun _ => ⟨3⟩) 1 (by decide) (by decide)
    (fun _ => 0) (fun _ => 0) (some ⟨1003, 0⟩)
    (fun own member => by cases member; decide)).1

end Par3
