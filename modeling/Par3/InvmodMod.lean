import Par3.DivmodContract

/-!
# Inverses modulo a polynomial

Euclid's algorithm with the coefficients of one of the two operands. The loop runs until a remainder
is zero; what it then has is an inverse if the last remainder before is a constant, and nothing asks
whether it is.
-/

namespace Par3

open Polynomial PolynomialDivision

/-! ## The loop -/

/-- The buffers of the algorithm with their degrees. -/
structure EgcdState where
  r_prev : ℕ → Gf64
  r_curr : ℕ → Gf64
  s_prev : ℕ → Gf64
  s_curr : ℕ → Gf64
  q_buf : ℕ → Gf64
  qr_buf : ℕ → Gf64
  deg_r_prev : ℕ
  deg_r_curr : ℕ
  deg_s_prev : ℕ
  deg_s_curr : ℕ
  r_curr_is_zero : Bool
  s_curr_is_zero : Bool

/-- `while (degree > 0 && words[degree] == 0) degree--` -/
def trimmedDegree (words : ℕ → Gf64) : ℕ → ℕ
  | 0 => 0
  | degree + 1 => if words (degree + 1) = 0 then trimmedDegree words degree else degree + 1

/-- `q * s`, coefficient by coefficient. -/
def cofactorProduct (q : ℕ → Gf64) (deg_q : ℕ) (s : ℕ → Gf64) (deg_s : ℕ) : ℕ → Gf64 :=
  (List.range (deg_q + 1)).foldl (fun tmp i =>
    if q i = 0 then tmp
    else (List.range (deg_s + 1)).foldl (fun tmp j => xorAt tmp (i + j) (q i * s j)) tmp) fun _ => 0

/-- The next cofactor with its degree, from the quotient. -/
def EgcdState.cofactor (state : EgcdState) (q_buf : ℕ → Gf64) (deg_q : ℕ) : (ℕ → Gf64) × ℕ :=
  if state.s_curr_is_zero then (state.s_prev, state.deg_s_prev)
  else
    let tmp := cofactorProduct q_buf deg_q state.s_curr state.deg_s_curr
    let s_next := fun i => state.s_prev i + tmp i
    (s_next, trimmedDegree s_next (if state.deg_s_prev > deg_q + state.deg_s_curr then
      state.deg_s_prev else deg_q + state.deg_s_curr))

/-- One turn of the loop. -/
def EgcdState.step (kernels : Kernels) (state : EgcdState) : Option EgcdState := do
  let (q_buf, qr_buf) ← gf64_poly_divmod kernels state.r_prev state.deg_r_prev state.r_curr
    state.deg_r_curr state.q_buf state.qr_buf
  let deg_q :=
    if state.deg_r_prev ≥ state.deg_r_curr then state.deg_r_prev - state.deg_r_curr else 0
  let r_next := qr_buf
  let deg_r_next := trimmedDegree r_next state.deg_r_curr
  let r_next_is_zero : Bool := deg_r_next = 0 ∧ r_next 0 = 0
  let (s_next, deg_s_next) := state.cofactor q_buf deg_q
  let s_next_is_zero : Bool := deg_s_next = 0 ∧ s_next 0 = 0
  some
    { r_prev := state.r_curr
      r_curr := r_next
      s_prev := state.s_curr
      s_curr := s_next
      q_buf := q_buf
      qr_buf := qr_buf
      deg_r_prev := state.deg_r_curr
      deg_r_curr := deg_r_next
      deg_s_prev := state.deg_s_curr
      deg_s_curr := deg_s_next
      r_curr_is_zero := r_next_is_zero
      s_curr_is_zero := s_next_is_zero }

/-- `while (!r_curr_is_zero)`, for at most so many rounds. -/
def egcdLoop (kernels : Kernels) : ℕ → EgcdState → Option EgcdState
  | 0, _ => none
  | rounds + 1, state =>
    if state.r_curr_is_zero then some state
    else do
      let state ← state.step kernels
      egcdLoop kernels rounds state

/-- The return code and the output. -/
def gf64_poly_invmod_mod (kernels : Kernels) (g : ℕ → Gf64) (deg_g : ℕ) (f : ℕ → Gf64) (deg_f : ℕ)
    (inv_out : ℕ → Gf64) : Option (ℤ × (ℕ → Gf64)) :=
  if deg_f = 0 then some (0, Function.update inv_out 0 (g 0)⁻¹)
  else do
    let state ← egcdLoop kernels (deg_f + 2)
      { r_prev := fun i => if i ≤ deg_g then g i else 0
        r_curr := fun i => if i ≤ deg_f then f i else 0
        s_prev := Function.update (fun _ => 0) 0 1
        s_curr := fun _ => 0
        q_buf := fun _ => 0
        qr_buf := fun _ => 0
        deg_r_prev := deg_g
        deg_r_curr := deg_f
        deg_s_prev := 0
        deg_s_curr := 0
        r_curr_is_zero := false
        s_curr_is_zero := true }
    if state.deg_s_prev = SIZE_MAX then some (-1, inv_out)
    else
      let c_inv := (state.r_prev 0)⁻¹
      some (0, fun i => if i ≤ state.deg_s_prev then state.s_prev i * c_inv
        else if i < deg_f then 0 else inv_out i)

/-! ## One turn -/

theorem trimmedDegree_le (words : ℕ → Gf64) (degree : ℕ) : trimmedDegree words degree ≤ degree := by
  induction degree with
  | zero => exact le_rfl
  | succ degree ih =>
    rw [trimmedDegree]
    split
    · exact Nat.le_succ_of_le ih
    · exact le_rfl

theorem trimmedDegree_above (words : ℕ → Gf64) {degree k : ℕ} (above : trimmedDegree words degree < k)
    (inside : k ≤ degree) : words k = 0 := by
  induction degree with
  | zero => omega
  | succ degree ih =>
    rw [trimmedDegree] at above
    split at above
    case isTrue zero =>
      rcases Nat.lt_or_eq_of_le inside with earlier | rfl
      · exact ih above (Nat.lt_succ_iff.mp earlier)
      · exact zero
    case isFalse => omega

theorem trimmedDegree_lead (words : ℕ → Gf64) {degree : ℕ} (some : trimmedDegree words degree ≠ 0) :
    words (trimmedDegree words degree) ≠ 0 := by
  induction degree with
  | zero => exact absurd rfl some
  | succ degree ih =>
    rw [trimmedDegree] at some ⊢
    split at some
    case isTrue zero =>
      rw [if_pos zero]
      exact ih some
    case isFalse nonzero =>
      rw [if_neg nonzero]
      exact nonzero

/-- Trimming keeps the polynomial. -/
theorem firstTerms_trimmed (words : ℕ → Gf64) (degree : ℕ) :
    firstTerms words (trimmedDegree words degree + 1) = firstTerms words (degree + 1) :=
  (firstTerms_more (Nat.succ_le_succ (trimmedDegree_le words degree)) fun _ inside above =>
    trimmedDegree_above words above (Nat.lt_succ_iff.mp inside)).symm

theorem cofactorProduct_coeff (q : ℕ → Gf64) (deg_q : ℕ) (s : ℕ → Gf64) (deg_s k : ℕ) :
    cofactorProduct q deg_q s deg_s k =
      (firstTerms q (deg_q + 1) * firstTerms s (deg_s + 1)).coeff k := by
  have rows (count : ℕ) : (List.range count).foldl (fun tmp i =>
      if q i = 0 then tmp
      else (List.range (deg_s + 1)).foldl (fun tmp j => xorAt tmp (i + j) (q i * s j)) tmp)
        (fun _ => 0) k =
      ∑ i ∈ Finset.range count, ∑ j ∈ Finset.range (deg_s + 1),
        if i + j = k then q i * s j else 0 := by
    induction count with
    | zero => simp
    | succ count ih =>
      rw [List.range_succ (n := count), List.foldl_append, List.foldl_cons, List.foldl_nil,
        Finset.sum_range_succ]
      split
      case isTrue zero =>
        rw [ih, zero]
        simp only [zero_mul, ite_self, Finset.sum_const_zero, add_zero]
      case isFalse => rw [foldl_xorAt, ih]
  rw [cofactorProduct, mul_coeff, rows]

section Loop

variable {F G : Gf64[X]} {deg_f : ℕ} {state : EgcdState}

/-- What holds of the two remainders and their cofactors in every turn. -/
structure EgcdState.Valid (F G : Gf64[X]) (state : EgcdState) : Prop where
  prev : F ∣ firstTerms state.r_prev (state.deg_r_prev + 1) -
    firstTerms state.s_prev (state.deg_s_prev + 1) * G
  curr : F ∣ firstTerms state.r_curr (state.deg_r_curr + 1) -
    firstTerms state.s_curr (state.deg_s_curr + 1) * G
  coprime : IsCoprime (firstTerms state.r_prev (state.deg_r_prev + 1))
    (firstTerms state.r_curr (state.deg_r_curr + 1)) ↔ IsCoprime G F
  r_zero : state.r_curr_is_zero = true → firstTerms state.r_curr (state.deg_r_curr + 1) = 0
  r_lead : state.r_curr_is_zero = false → state.r_curr state.deg_r_curr ≠ 0
  s_zero : state.s_curr_is_zero = true → firstTerms state.s_curr (state.deg_s_curr + 1) = 0
  s_prev_above : ∀ i > state.deg_s_prev, state.s_prev i = 0
  s_curr_above : ∀ i > state.deg_s_curr, state.s_curr i = 0

theorem firstTerms_of_flag {words : ℕ → Gf64} {degree : ℕ}
    (zero : decide (degree = 0 ∧ words 0 = 0) = true) : firstTerms words (degree + 1) = 0 := by
  obtain ⟨rfl, first⟩ := of_decide_eq_true zero
  rw [firstTerms_succ, first, C_0, zero_mul, add_zero]
  exact Finset.sum_range_zero _

theorem lead_of_flag {words : ℕ → Gf64} {degree : ℕ}
    (some : decide (trimmedDegree words degree = 0 ∧ words 0 = 0) = false) :
    words (trimmedDegree words degree) ≠ 0 := by
  have either := of_decide_eq_false some
  by_cases zero : trimmedDegree words degree = 0
  · rw [zero]
    exact fun first => either ⟨zero, first⟩
  · exact trimmedDegree_lead words zero

/-- What the division of one turn leaves. -/
theorem divmod_terms (kernels : Kernels) {f g q r : ℕ → Gf64} {deg_f deg_g : ℕ} (lead : g deg_g ≠ 0)
    (fits : deg_f + 1 ≤ SIZE_MAX / 3) (zeros : deg_f < deg_g → r deg_g = 0) :
    ∃ quotient remainder, gf64_poly_divmod kernels f deg_f g deg_g q r = some (quotient, remainder) ∧
      firstTerms quotient (deg_f - deg_g + 1) =
        firstTerms f (deg_f + 1) / firstTerms g (deg_g + 1) ∧
      firstTerms remainder (deg_g + 1) = firstTerms f (deg_f + 1) % firstTerms g (deg_g + 1) ∧
      remainder deg_g = 0 := by
  have last : (divided f deg_f g deg_g q r).2 deg_g = 0 := by
    dsimp only [divided]
    rw [if_neg (lt_irrefl deg_g)]
    split
    case isTrue => rfl
    case isFalse short => exact zeros (not_le.mp short)
  refine ⟨_, _, gf64_poly_divmod_scratch_eq kernels lead fits (hasRoom_none _), divided_quotient (r := r) lead,
    ?_, last⟩
  change firstTerms (divided f deg_f g deg_g q r).2 (deg_g + 1) = _
  rw [firstTerms_succ, last, C_0, zero_mul, add_zero, divided_remainder lead]

/-- The next cofactor, and how far its degree may grow. -/
theorem cofactor_terms
    (zero : state.s_curr_is_zero = true → firstTerms state.s_curr (state.deg_s_curr + 1) = 0)
    (above : ∀ i > state.deg_s_prev, state.s_prev i = 0) (q_buf : ℕ → Gf64) (deg_q : ℕ) :
    firstTerms (state.cofactor q_buf deg_q).1 ((state.cofactor q_buf deg_q).2 + 1) =
        firstTerms state.s_prev (state.deg_s_prev + 1) +
          firstTerms q_buf (deg_q + 1) * firstTerms state.s_curr (state.deg_s_curr + 1) ∧
      (∀ i > (state.cofactor q_buf deg_q).2, (state.cofactor q_buf deg_q).1 i = 0) ∧
      (state.s_curr_is_zero = true → (state.cofactor q_buf deg_q).2 = state.deg_s_prev) ∧
      (state.cofactor q_buf deg_q).2 ≤ max state.deg_s_prev (deg_q + state.deg_s_curr) := by
  rw [EgcdState.cofactor]
  split
  case isTrue flag =>
    refine ⟨?_, above, fun _ => rfl, le_max_left _ _⟩
    rw [zero flag, mul_zero, add_zero]
  case isFalse flag =>
    dsimp only
    generalize degree : (if state.deg_s_prev > deg_q + state.deg_s_curr then state.deg_s_prev
      else deg_q + state.deg_s_curr) = deg
    have bounds : state.deg_s_prev ≤ deg ∧ deg_q + state.deg_s_curr ≤ deg ∧
        deg ≤ max state.deg_s_prev (deg_q + state.deg_s_curr) := by split at degree <;> omega
    have beyond : ∀ i > deg, cofactorProduct q_buf deg_q state.s_curr state.deg_s_curr i = 0 := by
      intro i outside
      rw [cofactorProduct_coeff]
      refine coeff_eq_zero_of_natDegree_lt (natDegree_mul_le.trans_lt ?_)
      have first := firstTerms_natDegree_le q_buf deg_q
      have second := firstTerms_natDegree_le state.s_curr state.deg_s_curr
      omega
    refine ⟨?_, fun i outside => ?_, fun other => absurd other flag,
      (trimmedDegree_le _ _).trans bounds.2.2⟩
    · rw [firstTerms_trimmed, firstTerms_add,
        firstTerms_more (by omega) fun k _ outside => above k outside]
      congr 1
      exact firstTerms_eq (fun k _ => cofactorProduct_coeff _ _ _ _ k) fun k outside => by
        rw [← cofactorProduct_coeff, beyond k outside]
    · by_cases inside : i ≤ deg
      · exact trimmedDegree_above _ outside inside
      · rw [above i (by omega), beyond i (by omega), add_zero]

/-- One turn divides, and the operands of the next turn have what is said of all. -/
theorem EgcdState.Valid.step (kernels : Kernels) (valid : state.Valid F G)
    (more : state.r_curr_is_zero = false) (fits : state.deg_r_prev + 1 ≤ SIZE_MAX / 3)
    (zeros : state.deg_r_prev < state.deg_r_curr → state.qr_buf state.deg_r_curr = 0) :
    ∃ next, state.step kernels = some next ∧ next.Valid F G ∧
      next.r_prev = state.r_curr ∧ next.deg_r_prev = state.deg_r_curr ∧
      next.deg_s_prev = state.deg_s_curr ∧ next.deg_r_curr ≤ state.deg_r_curr ∧
      (next.r_curr_is_zero = false → next.deg_r_curr < state.deg_r_curr) ∧
      (state.s_curr_is_zero = true → next.deg_s_curr = state.deg_s_prev) ∧
      next.deg_s_curr ≤
        max state.deg_s_prev (state.deg_r_prev - state.deg_r_curr + state.deg_s_curr) := by
  have lead := valid.r_lead more
  have width : (if state.deg_r_prev ≥ state.deg_r_curr then state.deg_r_prev - state.deg_r_curr
      else 0) = state.deg_r_prev - state.deg_r_curr := by split <;> omega
  obtain ⟨q_buf, qr_buf, run, quotient, remainder⟩ := divmod_terms kernels lead fits zeros
  rw [EgcdState.step, run]
  simp only [Option.bind_eq_bind, Option.bind_some, width]
  obtain ⟨product, above, same, bound⟩ := cofactor_terms valid.s_zero valid.s_prev_above q_buf
    (state.deg_r_prev - state.deg_r_curr)
  rw [quotient] at product
  generalize state.cofactor q_buf (state.deg_r_prev - state.deg_r_curr) = cofactor
    at product above same bound
  obtain ⟨s_next, deg_s_next⟩ := cofactor
  have split := EuclideanDomain.div_add_mod (firstTerms state.r_prev (state.deg_r_prev + 1))
    (firstTerms state.r_curr (state.deg_r_curr + 1))
  have trimmed := firstTerms_trimmed qr_buf state.deg_r_curr
  rw [remainder.1] at trimmed
  refine ⟨_, rfl, ⟨valid.curr, ?_, ?_, firstTerms_of_flag, lead_of_flag, firstTerms_of_flag,
    valid.s_curr_above, above⟩, rfl, rfl, rfl, trimmedDegree_le _ _, fun some => ?_, same, bound⟩
  · dsimp only at product ⊢
    rw [trimmed, product]
    obtain ⟨first, prev⟩ := valid.prev
    obtain ⟨second, curr⟩ := valid.curr
    -- the remainder is what the quotient leaves of the first operand
    refine ⟨first - firstTerms state.r_prev (state.deg_r_prev + 1) /
      firstTerms state.r_curr (state.deg_r_curr + 1) * second, ?_⟩
    linear_combination split + prev -
      firstTerms state.r_prev (state.deg_r_prev + 1) /
        firstTerms state.r_curr (state.deg_r_curr + 1) * curr -
      firstTerms state.r_prev (state.deg_r_prev + 1) /
        firstTerms state.r_curr (state.deg_r_curr + 1) *
          firstTerms state.s_curr (state.deg_s_curr + 1) * G * (CharTwo.two_eq_zero : (2 : Gf64[X]) = 0)
  · dsimp only
    rw [trimmed, ← valid.coprime, isCoprime_comm]
    conv_rhs => rw [← split, add_comm]
    exact IsCoprime.add_mul_left_left_iff.symm
  · dsimp only at some ⊢
    refine lt_of_le_of_ne (trimmedDegree_le _ _) fun whole => lead_of_flag some ?_
    rw [whole]
    exact remainder.2

/-! ## The loop -/

/-- After the first turn, the degrees of remainder and cofactor make up for each other. -/
structure EgcdState.Bounded (deg_f : ℕ) (state : EgcdState) : Prop where
  s_curr : state.deg_s_curr + state.deg_r_prev ≤ deg_f
  s_prev : state.deg_s_prev < deg_f
  both : state.r_curr_is_zero = false → state.deg_s_prev + state.deg_r_curr ≤ deg_f
  falls : state.r_curr_is_zero = false → state.deg_r_curr < state.deg_r_prev
  lead : state.r_prev state.deg_r_prev ≠ 0

/-- The loop ends with a remainder that is zero. -/
theorem egcdLoop_valid (kernels : Kernels) (fits : deg_f + 1 ≤ SIZE_MAX / 3) (rounds : ℕ)
    (valid : state.Valid F G) (bounded : state.Bounded deg_f) (some : 0 < rounds)
    (room : state.r_curr_is_zero = false → state.deg_r_curr + 1 < rounds) :
    ∃ last, egcdLoop kernels rounds state = Option.some last ∧ last.Valid F G ∧
      last.Bounded deg_f ∧ last.r_curr_is_zero = true := by
  induction rounds generalizing state with
  | zero => exact absurd some (lt_irrefl 0)
  | succ rounds ih =>
    rw [egcdLoop]
    cases flag : state.r_curr_is_zero with
    | true => exact ⟨state, rfl, valid, bounded, flag⟩
    | false =>
      have falls := bounded.falls flag
      have enough := room flag
      have sum := bounded.s_curr
      obtain ⟨next, run, nextValid, sameWords, sameDegree, cofactor, degree, smaller, -, bound⟩ :=
        valid.step kernels flag (by omega) fun short => absurd short falls.not_gt
      have both := bounded.both flag
      have width : next.deg_s_curr + state.deg_r_curr ≤ deg_f := by
        rcases le_max_iff.mp bound with small | small <;> omega
      rw [if_neg Bool.false_ne_true, run]
      refine ih nextValid ⟨?_, ?_, fun more => ?_, fun more => ?_, ?_⟩ (by omega)
        fun more => ?_
      · rwa [sameDegree]
      · omega
      · rw [cofactor]
        omega
      · rw [sameDegree]
        exact smaller more
      · rw [sameWords, sameDegree]
        exact valid.r_lead flag
      · have less := smaller more
        omega

end Loop

/-! ## The result -/

section Result

variable {f : ℕ → Gf64} {deg_f : ℕ}

/-- For a modulus that is not constant, the code for success is returned in every case. The output
inverts where the operands are coprime. -/
theorem gf64_poly_invmod_mod_returns (kernels : Kernels) (g : ℕ → Gf64) (deg_g : ℕ)
    (nonconstant : deg_f ≠ 0)
    (lead : f deg_f ≠ 0) (memory : max deg_f deg_g + 1 ≤ SIZE_MAX / 8) (inv_out : ℕ → Gf64) :
    ∃ h, gf64_poly_invmod_mod kernels g deg_g f deg_f inv_out = some (0, h) ∧
      (IsCoprime (firstTerms g (deg_g + 1)) (firstTerms f (deg_f + 1)) →
        firstTerms f (deg_f + 1) ∣ firstTerms g (deg_g + 1) * firstTerms h deg_f - 1) := by
  have addresses : SIZE_MAX / 8 ≤ SIZE_MAX / 3 := by decide
  have last : SIZE_MAX / 8 < SIZE_MAX := by decide
  have sizes : deg_f + 1 ≤ SIZE_MAX / 8 ∧ deg_g + 1 ≤ SIZE_MAX / 8 := by omega
  let start : EgcdState :=
    { r_prev := fun i => if i ≤ deg_g then g i else 0
      r_curr := fun i => if i ≤ deg_f then f i else 0
      s_prev := Function.update (fun _ => 0) 0 1
      s_curr := fun _ => 0
      q_buf := fun _ => 0
      qr_buf := fun _ => 0
      deg_r_prev := deg_g
      deg_r_curr := deg_f
      deg_s_prev := 0
      deg_s_curr := 0
      r_curr_is_zero := false
      s_curr_is_zero := true }
  have first : firstTerms start.r_prev (deg_g + 1) = firstTerms g (deg_g + 1) :=
    firstTerms_congr fun k inside => if_pos (Nat.lt_succ_iff.mp inside)
  have second : firstTerms start.r_curr (deg_f + 1) = firstTerms f (deg_f + 1) :=
    firstTerms_congr fun k inside => if_pos (Nat.lt_succ_iff.mp inside)
  have one : firstTerms start.s_prev 1 = 1 :=
    firstTerms_eq (fun k inside => by
      obtain rfl : k = 0 := by omega
      exact coeff_one_zero.symm) fun k beyond => coeff_one.trans (if_neg (by omega))
  have zero : firstTerms start.s_curr 1 = 0 := firstTerms_eq (fun _ _ => rfl) fun _ _ => rfl
  have valid : start.Valid (firstTerms f (deg_f + 1)) (firstTerms g (deg_g + 1)) := by
    refine ⟨?_, ?_, ?_, (fun flag => nomatch flag), fun _ => ?_, fun _ => zero, fun i above => ?_,
      fun _ _ => rfl⟩
    · rw [first, one, one_mul, sub_self]
      exact dvd_zero _
    · rw [second, zero, zero_mul, sub_zero]
    · rw [first, second]
    · exact (if_pos le_rfl).trans_ne lead
    · change Function.update (fun _ => (0 : Gf64)) 0 1 i = 0
      exact Function.update_of_ne (Nat.pos_iff_ne_zero.mp above) _ _
  obtain ⟨next, run, nextValid, sameWords, sameDegree, cofactor, degree, smaller, same, -⟩ :=
    valid.step kernels rfl (by change deg_g + 1 ≤ _; omega) fun _ => rfl
  have bounded : next.Bounded deg_f := by
    refine ⟨?_, ?_, fun _ => ?_, fun more => ?_, ?_⟩
    · rw [same rfl, sameDegree, Nat.zero_add]
    · rw [cofactor]
      exact Nat.pos_of_ne_zero nonconstant
    · rw [cofactor, Nat.zero_add]
      exact degree
    · rw [sameDegree]
      exact smaller more
    · rw [sameWords, sameDegree]
      exact (if_pos le_rfl).trans_ne lead
  obtain ⟨final, loop, finalValid, finalBounded, done⟩ := egcdLoop_valid kernels (by omega)
    (deg_f + 1) nextValid bounded (Nat.succ_pos _) fun more => Nat.succ_lt_succ (smaller more)
  have whole : egcdLoop kernels (deg_f + 2) start = some final := by
    rw [egcdLoop, if_neg Bool.false_ne_true, run]
    exact loop
  have small := finalBounded.s_prev
  rw [gf64_poly_invmod_mod, if_neg nonconstant, whole]
  simp only [Option.bind_eq_bind, Option.bind_some]
  rw [if_neg (by omega)]
  refine ⟨_, rfl, fun coprime => ?_⟩
  have unit := finalValid.coprime.mpr coprime
  rw [finalValid.r_zero done, isCoprime_zero_right] at unit
  have degree := firstTerms_degree_eq finalBounded.lead
  rw [degree_eq_zero_of_isUnit unit] at degree
  have constant : final.deg_r_prev = 0 := (Nat.cast_eq_zero.mp degree.symm)
  have nonzero : final.r_prev 0 ≠ 0 := constant ▸ finalBounded.lead
  have output : firstTerms (fun i => if i ≤ final.deg_s_prev then
      final.s_prev i * (final.r_prev 0)⁻¹ else if i < deg_f then 0 else inv_out i) deg_f =
        firstTerms final.s_prev (final.deg_s_prev + 1) * C (final.r_prev 0)⁻¹ := by
    refine firstTerms_eq (fun k inside => ?_) fun k beyond => ?_
    · rw [coeff_mul_C, firstTerms_coeff]
      by_cases within : k ≤ final.deg_s_prev
      · rw [if_pos within, if_pos (Nat.lt_succ_of_le within)]
      · rw [if_neg within, if_pos inside, if_neg (by omega), zero_mul]
    · rw [coeff_mul_C, firstTerms_coeff, if_neg (by omega), zero_mul]
  obtain ⟨rest, bezout⟩ := finalValid.prev
  rw [constant, firstTerms_succ, pow_zero, mul_one, firstTerms, Finset.sum_range_zero,
    zero_add] at bezout
  have inverse : (C (final.r_prev 0) : Gf64[X]) * C (final.r_prev 0)⁻¹ = 1 := by
    rw [← C_mul, mul_inv_cancel₀ nonzero, C_1]
  rw [output]
  exact ⟨-rest * C (final.r_prev 0)⁻¹, by linear_combination inverse - C (final.r_prev 0)⁻¹ * bezout⟩

/-- What is promised of a call: success for operands without a common factor, with the inverse, and
the code for failure for all others. -/
def InvertsModulo (kernels : Kernels) (g : ℕ → Gf64) (deg_g : ℕ) (f : ℕ → Gf64) (deg_f : ℕ)
    (inv_out : ℕ → Gf64) : Prop :=
  ∃ rc h, gf64_poly_invmod_mod kernels g deg_g f deg_f inv_out = some (rc, h) ∧
    (rc = 0 ↔ IsCoprime (firstTerms g (deg_g + 1)) (firstTerms f (deg_f + 1))) ∧
    (rc = 0 → firstTerms f (deg_f + 1) ∣ firstTerms g (deg_g + 1) * firstTerms h deg_f - 1 ∧
      (firstTerms h deg_f).degree < (firstTerms f (deg_f + 1)).degree) ∧
    (¬ IsCoprime (firstTerms g (deg_g + 1)) (firstTerms f (deg_f + 1)) → rc = -1)

/-- The promise is kept exactly for operands without a common factor. With one the result should be
`-1`, but the function returns zero: the degree it tests is never that of the zero polynomial. -/
theorem invertsModulo_iff (kernels : Kernels) (g : ℕ → Gf64) (deg_g : ℕ) (f : ℕ → Gf64) (deg_f : ℕ)
    (nonconstant : deg_f ≠ 0) (lead : f deg_f ≠ 0) (memory : max deg_f deg_g + 1 ≤ SIZE_MAX / 8)
    (inv_out : ℕ → Gf64) :
    InvertsModulo kernels g deg_g f deg_f inv_out ↔
      IsCoprime (firstTerms g (deg_g + 1)) (firstTerms f (deg_f + 1)) := by
  obtain ⟨h, returned, inverse⟩ :=
    gf64_poly_invmod_mod_returns kernels g deg_g nonconstant lead memory inv_out
  constructor
  · rintro ⟨rc, output, same, success, -⟩
    rw [returned] at same
    cases same
    exact success.mp rfl
  · intro coprime
    refine ⟨0, h, returned, ⟨fun _ => coprime, fun _ => rfl⟩, fun _ => ⟨inverse coprime, ?_⟩,
      fun common => absurd coprime common⟩
    rw [firstTerms_degree_eq lead]
    exact firstTerms_degree_lt h deg_f

/-- The line through zero has an inverse modulo a polynomial of degree two. -/
theorem invertsModulo_iff_line :
    InvertsModulo ⟨false, true⟩ (fun i => if i = 1 then 1 else 0) 1 (fun i => if i = 1 then 0 else 1) 2
      fun _ => 0 := by
  refine (invertsModulo_iff ⟨false, true⟩ _ 1 _ 2 (by decide) (by decide) (by decide) _).mpr ⟨X, 1, ?_⟩
  simp [firstTerms, Finset.sum_range_succ]
  linear_combination X ^ 2 * (CharTwo.two_eq_zero : (2 : Gf64[X]) = 0)

/-- Zero is said to have an inverse modulo a line. -/
theorem zero_has_inverse :
    ¬ InvertsModulo ⟨false, true⟩ (fun _ => 0) 0 (fun i => if i = 1 then 1 else 0) 1 fun _ => 0 := by
  let line : ℕ → Gf64 := fun i => if i = 1 then 1 else 0
  have lead : line 1 ≠ 0 := by decide
  rintro ⟨rc, output, same, success, -⟩
  obtain ⟨h, returned, -⟩ := gf64_poly_invmod_mod_returns ⟨false, true⟩ (fun _ => 0) 0
    Nat.one_ne_zero lead (by decide) fun _ => 0
  rw [returned] at same
  cases same
  have zero : firstTerms (fun _ => 0) (0 + 1) = 0 := firstTerms_eq (fun _ _ => rfl) fun _ _ => rfl
  have unit := success.mp rfl
  rw [zero, isCoprime_zero_left] at unit
  have degree := firstTerms_degree_eq lead
  rw [degree_eq_zero_of_isUnit unit] at degree
  exact absurd (Nat.cast_eq_zero.mp degree.symm) Nat.one_ne_zero

end Result

end Par3
