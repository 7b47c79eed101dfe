import Par3.FengerBatch

/-!
# The sums of fractions

A prepared context knows the trees of both lists of points, the derivative of the product over the
inputs and its inverses, and the inverses of that product at the recovery points. Every word of a
recovery block is then the value of one polynomial, divided by that of the product. Passes write what
the loop over the words writes, and with distinct points both write the sums of fractions.
-/

namespace Par3

open Polynomial ProductTree PolynomialDivision BatchWalk

/-! ## Prepared contexts -/

theorem invertAll_eq (inverses : InverseKernels) (input : ℕ → Gf64) (count : ℕ) :
    invertAll inverses input count = fun c => if c < count then (input c)⁻¹ else 0 := by
  rw [invertAll, gf64_invert_ita_batch_eq]
  simp only [gf64_invert_ita_one_all]
  rw [FallibleLoops.foldl_update_range fun c _ => (input c)⁻¹, ite_self]

section Pool

variable {tree : SubproductTree} {points : ℕ → Gf64} {L : ℕ} (kernels : Kernels)
  (isTree : IsTree tree points L)

/-- A reciprocal is in its place. -/
def ReciprocalAt (points : ℕ → Gf64) (pool : ℕ → Gf64) (place below i : ℕ) : Prop :=
  SameBelow (2 ^ below) (reflect (2 ^ below) (nodePolynomial points below i) *
    firstTerms (view pool place) (2 ^ below)) 1

theorem ReciprocalAt.congr {pool next : ℕ → Gf64} {place below i bound : ℕ}
    (known : ReciprocalAt points pool place below i) (inside : place + 2 ^ below ≤ bound)
    (same : ∀ j < bound, next j = pool j) : ReciprocalAt points next place below i := by
  have unchanged : firstTerms (view next place) (2 ^ below) = firstTerms (view pool place) (2 ^ below) :=
    firstTerms_congr fun k within => same (place + k) (by omega)
  rw [ReciprocalAt, unchanged]
  exact known

include isTree

theorem poolReciprocal_step {lev below i : ℕ} (level : lev + below = L) (inside : i < 2 ^ lev)
    (fits : 2 ^ below ≤ SIZE_MAX / 3) (pool : ℕ → Gf64) (cursor : ℕ) :
    ∃ next, poolReciprocal kernels tree lev (2 ^ below) (pool, cursor) i =
        some (next, cursor + 2 ^ below) ∧
      ReciprocalAt points next cursor below i ∧ ∀ j < cursor, next j = pool j := by
  have lead := isTree.child_lead level inside
  obtain ⟨h, run, known⟩ := gf64_poly_invmod_scratch_reciprocal kernels
    (g := fun k => tree.level_data lev (i * (2 ^ below + 1)) (2 ^ below - k))
    (by rwa [Nat.sub_zero]) (2 ^ below) fits (view pool cursor) (hasRoom_none _)
  rw [firstTerms_reflect, isTree.child_firstTerms level inside] at known
  rw [poolReciprocal, gf64_poly_invmod, run]
  refine ⟨_, rfl, ?_, fun j before => if_pos before⟩
  have written : firstTerms (view (fun j => if j < cursor then pool j else h (j - cursor)) cursor)
      (2 ^ below) = firstTerms h (2 ^ below) :=
    firstTerms_congr fun k _ => by rw [view, if_neg (by omega), Nat.add_sub_cancel_left]
  rw [ReciprocalAt, written]
  exact known

/-- One level, from the first child to the last. -/
theorem pool_level {lev below : ℕ} (level : lev + below = L) (fits : 2 ^ below ≤ SIZE_MAX / 3)
    (pool : ℕ → Gf64) (cursor count : ℕ) (few : count ≤ 2 ^ lev) :
    ∃ next, (List.range count).foldlM (poolReciprocal kernels tree lev (2 ^ below)) (pool, cursor) =
        some (next, cursor + count * 2 ^ below) ∧
      (∀ i < count, ReciprocalAt points next (cursor + i * 2 ^ below) below i) ∧
      ∀ j < cursor, next j = pool j := by
  induction count with
  | zero =>
    rw [Nat.zero_mul]
    exact ⟨pool, rfl, fun i inside => absurd inside (Nat.not_lt_zero i), fun _ _ => rfl⟩
  | succ count ih =>
    obtain ⟨middle, run, known, kept⟩ := ih (by omega)
    obtain ⟨last, step, new, others⟩ := poolReciprocal_step kernels isTree level
      (by omega : count < 2 ^ lev) fits middle (cursor + count * 2 ^ below)
    refine ⟨last, ?_, fun i inside => ?_, fun j before => ?_⟩
    · rw [List.range_succ, List.foldlM_append, run]
      simp only [Option.bind_eq_bind, Option.bind_some, List.foldlM_cons, step, List.foldlM_nil]
      rw [Nat.succ_mul, Nat.add_assoc]
      rfl
    · rcases Nat.lt_succ_iff_lt_or_eq.mp inside with earlier | rfl
      · have slab := Slabs.slab_le earlier (2 ^ below)
        exact (known i earlier).congr (by omega) others
      · exact new
    · rw [others j (by omega), kept j before]

theorem reciprocalPool_pooled (fits : 2 ^ L ≤ SIZE_MAX / 3) :
    ∃ pool, reciprocalPool kernels tree (2 ^ L) = some pool ∧ Pooled pool points L := by
  have levels (count : ℕ) (few : count + 1 ≤ L ∨ count = 0) : ∃ next,
      (List.range' 1 count).foldlM (fun state child_lev =>
        (List.range (1 <<< child_lev)).foldlM
          (poolReciprocal kernels tree child_lev (2 ^ L >>> child_lev)) state) (fun _ => 0, 0) =
        some (next, count * 2 ^ L) ∧
      ∀ lev < count, ∀ below, lev + 1 + below = L → ∀ i < 2 ^ (lev + 1),
        ReciprocalAt points next (lev * 2 ^ L + i * 2 ^ below) below i := by
    induction count with
    | zero =>
      rw [Nat.zero_mul]
      exact ⟨_, rfl, fun lev inside => absurd inside (Nat.not_lt_zero lev)⟩
    | succ count ih =>
      obtain ⟨middle, run, known⟩ := ih (by omega)
      obtain ⟨below, level⟩ := Nat.exists_eq_add_of_le (by omega : count + 1 ≤ L)
      have size : 2 ^ (count + 1) * 2 ^ below = 2 ^ L := by rw [← pow_add, ← level]
      have degree : 2 ^ L >>> (count + 1) = 2 ^ below := by
        rw [Nat.shiftRight_eq_div_pow, ← size, Nat.mul_div_cancel_left _ (Nat.two_pow_pos _)]
      have small : 2 ^ below ≤ 2 ^ L := Nat.pow_le_pow_right Nat.two_pos (by omega)
      obtain ⟨last, step, new, kept⟩ := pool_level kernels isTree level.symm (by omega) middle
        (count * 2 ^ L) (2 ^ (count + 1)) le_rfl
      refine ⟨last, ?_, fun lev inside below' level' i within => ?_⟩
      · rw [List.range'_1_concat, List.foldlM_append, run]
        simp only [Option.bind_eq_bind, Option.bind_some, List.foldlM_cons, List.foldlM_nil,
          Nat.add_comm 1 count, Nat.one_shiftLeft, degree, step, size, Nat.succ_mul]
        rfl
      · rcases Nat.lt_succ_iff_lt_or_eq.mp inside with earlier | rfl
        · have whole : 2 ^ (lev + 1) * 2 ^ below' = 2 ^ L := by rw [← pow_add, level']
          have place := Slabs.slab_le within (2 ^ below')
          have slab := Slabs.slab_le earlier (2 ^ L)
          exact (known lev earlier below' level' i within).congr (by omega) kept
        · obtain rfl : below' = below := by omega
          exact new i within
  rw [reciprocalPool, isTree.num_levels]
  split
  case isTrue more =>
    obtain ⟨pool, run, known⟩ := levels (L + 1 - 2) (by omega)
    rw [run]
    refine ⟨pool, rfl, fun lev below level large i inside => ?_⟩
    have deep : 0 < below := by
      by_contra leaf
      rw [Nat.eq_zero_of_not_pos leaf, pow_zero] at large
      exact absurd large (lt_irrefl 1)
    have degree : 2 ^ L >>> (lev + 1) = 2 ^ below := by
      rw [Nat.shiftRight_eq_div_pow, ← level, pow_add, Nat.mul_div_cancel_left _ (Nat.two_pow_pos _)]
    rw [fenger_recip_at, degree, Nat.add_sub_cancel]
    exact known lev (by omega) below level i inside
  case isFalse =>
    exact ⟨_, rfl, fun lev below level large => absurd large (by
      obtain rfl : below = 0 := by omega
      exact lt_irrefl 1)⟩

end Pool

/-- What the preparation has found for its points. -/
structure Prepared (ctx : FengerContext) (x y : ℕ → Gf64) (a b : ℕ) : Prop where
  tree_x : IsTree ctx.tree_x x a
  tree_y : IsTree ctx.tree_y y b
  memory_x : 8 * 2 ^ a ≤ SIZE_MAX / 8
  memory_y : 8 * 2 ^ b ≤ SIZE_MAX / 8
  N : ctx.N = 2 ^ a
  R : ctx.R = 2 ^ b
  V_prime_inv : ∀ c < 2 ^ a, ctx.V_prime_inv c =
    (eval (x c) (derivative (Lagrange.nodal (Finset.range (2 ^ a)) x)))⁻¹
  V_prime : ∀ c < 2 ^ a, ctx.V_prime c = (ctx.V_prime_inv c)⁻¹
  V_at_y_inv : ∀ r < 2 ^ b, ctx.V_at_y_inv r =
    (eval (y r) (Lagrange.nodal (Finset.range (2 ^ a)) x))⁻¹
  recip_pool : Pooled ctx.recip_pool y b

theorem preparePoints_prepared (kernels : Kernels) (inverses : InverseKernels) (x y : ℕ → Gf64)
    (a b numInputsReal numRecoveryReal : ℕ)
    (memory_x : (a + 1) * 2 ^ a + (2 ^ (a + 1) - 1) ≤ SIZE_MAX / 8)
    (memory_y : (b + 1) * 2 ^ b + (2 ^ (b + 1) - 1) ≤ SIZE_MAX / 8) :
    ∃ ctx, preparePoints kernels inverses x y (2 ^ a) (2 ^ b) numInputsReal numRecoveryReal =
        some ctx ∧ Prepared ctx x y a b ∧ ctx.num_inputs_real = numInputsReal ∧
      ctx.num_recovery_real = numRecoveryReal := by
  have addresses : SIZE_MAX / 8 ≤ SIZE_MAX / 3 := by decide
  have bytes : SIZE_MAX / 8 < SIZE_MAX := by decide
  have room_x := scratch_fits memory_x
  have room_y := scratch_fits memory_y
  obtain ⟨tree_x, built_x, isTree_x⟩ := gf64_subproduct_tree_build_eq kernels x a memory_x
  obtain ⟨tree_y, built_y, isTree_y⟩ := gf64_subproduct_tree_build_eq kernels y b memory_y
  obtain ⟨pool, pooled, known⟩ := reciprocalPool_pooled kernels isTree_y (by omega)
  have root : firstTerms (tree_x.level_data 0 0) (2 ^ a + 1) =
      Lagrange.nodal (Finset.range (2 ^ a)) x := by
    rw [← root_eq]
    exact firstTerms_eq (fun k inside => isTree_x.root (by omega)) fun k beyond =>
      coeff_eq_zero_of_natDegree_lt (by rw [nodePolynomial_degree]; omega)
  rw [preparePoints, built_x, built_y]
  simp only [Option.bind_eq_bind, Option.bind_some]
  rw [gf64_barycentric_weights_eq kernels inverses isTree_x room_x,
    gf64_multi_point_eval_eq kernels isTree_y room_y, pooled]
  simp only [Option.bind_some, invertAll_eq]
  refine ⟨_, rfl, ⟨isTree_x, isTree_y, room_x, room_y, rfl, rfl, fun c inside => ?_, fun c inside => ?_,
    fun r inside => ?_, known⟩, rfl, rfl⟩
  · dsimp only
    rw [if_pos inside, root_eq]
  · dsimp only
    rw [if_pos inside]
  · dsimp only
    rw [if_pos inside, if_pos inside, isTree_x.num_points, horner_eval_poly_eq _ (by omega), root]

/-- Without the memory for its trees, the program has ended. -/
theorem build_none (kernels : Kernels) (points : ℕ → Gf64) (L : ℕ)
    (memory : ¬ (L + 1) * 2 ^ L + (2 ^ (L + 1) - 1) ≤ SIZE_MAX / 8) :
    gf64_subproduct_tree_build kernels points (2 ^ L) = none := by
  have total := treeOffset_total L
  rw [treeOffset] at total
  rw [gf64_subproduct_tree_build]
  dsimp only
  rw [if_neg (Nat.two_pow_pos L).ne', if_neg (by rw [gf64_is_power_of_two_pow]; simp),
    gf64_log2_size_pow]
  change (if coefficientsBefore (treeLens L) (treeDegs L) (L + 1) > _ then _ else _) = _
  rw [if_pos (by omega)]

/-- Every context that was prepared for so many points is a prepared one. -/
theorem prepared_of_preparePoints {kernels : Kernels} {inverses : InverseKernels} {x y : ℕ → Gf64}
    {a b numInputsReal numRecoveryReal : ℕ} {ctx : FengerContext}
    (prepared : preparePoints kernels inverses x y (2 ^ a) (2 ^ b) numInputsReal numRecoveryReal =
      some ctx) :
    Prepared ctx x y a b ∧ ctx.num_inputs_real = numInputsReal ∧
      ctx.num_recovery_real = numRecoveryReal := by
  by_cases memory_x : (a + 1) * 2 ^ a + (2 ^ (a + 1) - 1) ≤ SIZE_MAX / 8
  · by_cases memory_y : (b + 1) * 2 ^ b + (2 ^ (b + 1) - 1) ≤ SIZE_MAX / 8
    · obtain ⟨found, same, facts⟩ := preparePoints_prepared kernels inverses x y a b numInputsReal
        numRecoveryReal memory_x memory_y
      obtain rfl := Option.some.inj (prepared.symm.trans same)
      exact facts
    · obtain ⟨tree_x, built_x, -⟩ := gf64_subproduct_tree_build_eq kernels x a memory_x
      rw [preparePoints, built_x, build_none kernels y b memory_y] at prepared
      exact nomatch prepared
  · rw [preparePoints, build_none kernels x a memory_x] at prepared
    exact nomatch prepared

/-! ## One word -/

section Word

variable {ctx : FengerContext} {x y : ℕ → Gf64} {a b : ℕ} (prepared : Prepared ctx x y a b)
  (kernels : Kernels)

/-- The polynomial of a word. -/
noncomputable def numerator (ctx : FengerContext) (x : ℕ → Gf64) (a : ℕ) (input : ℕ → Gf64) (B w : ℕ) :
    Gf64[X] :=
  combination (Finset.range (2 ^ a)) x fun c =>
    ctx.gather input B w c * ctx.V_prime c * ctx.V_prime_inv c

/-- The words that are written. -/
noncomputable def recoveryWord (ctx : FengerContext) (x y : ℕ → Gf64) (a : ℕ) (input : ℕ → Gf64)
    (B w r : ℕ) : Gf64 :=
  (numerator ctx x a input B w).eval (y r) * ctx.V_at_y_inv r

theorem scatter_congr (out : ℕ → Gf64) (B w : ℕ) {p q : ℕ → Gf64}
    (same : ∀ r < ctx.num_recovery_real, p r = q r) : ctx.scatter out B w p = ctx.scatter out B w q :=
  List.foldl_ext _ _ _ fun out r member => by rw [same r (List.mem_range.mp member)]

theorem numerator_degree (input : ℕ → Gf64) (B w : ℕ) :
    (numerator ctx x a input B w).degree < (2 ^ a : ℕ) := by
  have small := combination_degree_lt (Finset.range (2 ^ a)) x fun c =>
    ctx.gather input B w c * ctx.V_prime c * ctx.V_prime_inv c
  rwa [Finset.card_range] at small

/-- The coefficients of a word's polynomial, followed by anything. -/
theorem numerator_firstTerms {input poly : ℕ → Gf64} {B w : ℕ}
    (coefficients : ∀ i < 2 ^ a, poly i = (numerator ctx x a input B w).coeff i) :
    firstTerms poly (2 ^ a) = numerator ctx x a input B w :=
  firstTerms_eq coefficients fun _ beyond => coeff_eq_zero_of_degree_lt
    ((numerator_degree input B w).trans_le (Nat.cast_le.mpr beyond))

include prepared

theorem Prepared.deg_p : ctx.deg_p = 2 ^ a - 1 := by
  have pos := Nat.two_pow_pos a
  rw [FengerContext.deg_p, prepared.tree_x.num_points]
  split <;> omega

theorem executeWord_eq (real : ctx.num_recovery_real ≤ 2 ^ b) (input : ℕ → Gf64) (B : ℕ)
    (out : ℕ → Gf64) (w : ℕ) :
    ctx.executeWord kernels input B out w =
      some (ctx.scatter out B w (recoveryWord ctx x y a input B w)) := by
  have bytes : SIZE_MAX / 8 < SIZE_MAX := by decide
  have room := prepared.memory_x
  have pos := Nat.two_pow_pos a
  have count : 2 ^ a - 1 + 1 = 2 ^ a := by omega
  have weighted : combination (Finset.range (2 ^ a)) x (fun c => gf64_elem_mul (ctx.gather input B w)
      (ctx.gather input B w) ctx.V_prime ctx.N c * ctx.V_prime_inv c) = numerator ctx x a input B w :=
    combination_congr x fun c member => by
      rw [gf64_elem_mul, if_pos (prepared.N ▸ Finset.mem_range.mp member)]
  rw [FengerContext.executeWord, interp_some_eq kernels prepared.tree_x room, weighted, prepared.deg_p]
  simp only [Option.bind_eq_bind, Option.bind_some]
  rw [gf64_multi_point_eval_eq kernels prepared.tree_y prepared.memory_y]
  simp only [Option.bind_some]
  refine congrArg some (scatter_congr out B w fun r inside => ?_)
  rw [gf64_elem_mul, if_pos inside, if_pos (by omega), horner_eval_poly_eq _ (by omega), count,
    numerator_firstTerms fun i within => if_pos within, recoveryWord]

/-! ## Passes -/

omit prepared in
/-- Groups of turns make up a loop, and the last group is as long as what is left. -/
theorem foldlM_passes {State : Type} {step : State → ℕ → State} {K : ℕ} (pos : 0 < K)
    (start count : ℕ) (body : State → ℕ → Option State) (state : State)
    (each : ∀ state pass, pass * K < count → body state pass =
      some ((List.range (min K (count - pass * K))).foldl (fun state k =>
        step state (start + pass * K + k)) state)) :
    (List.range ((count + K - 1) / K)).foldlM body state =
      some ((List.range' start count).foldl step state) := by
  have rounds (passes : ℕ) (few : passes ≤ (count + K - 1) / K) :
      (List.range passes).foldlM body state =
        some ((List.range' start (min (passes * K) count)).foldl step state) := by
    induction passes with
    | zero =>
      rw [Nat.zero_mul, Nat.zero_min]
      rfl
    | succ passes ih =>
      have begun : passes * K < count := by
        have reached := (Nat.le_div_iff_mul_le pos).mp few
        rw [Nat.succ_mul] at reached
        omega
      have total : min ((passes + 1) * K) count = passes * K + min K (count - passes * K) := by
        rw [Nat.succ_mul]
        omega
      rw [List.range_succ, List.foldlM_append, ih (by omega),
        Nat.min_eq_left begun.le, total]
      simp only [Option.bind_eq_bind, Option.bind_some, List.foldlM_cons, List.foldlM_nil,
        each _ passes begun]
      rw [← List.range'_append_1, List.foldl_append, @List.range'_eq_map_range (start + passes * K),
        List.foldl_map]
      rfl
  have enough : count ≤ (count + K - 1) / K * K := by
    have split := Nat.div_add_mod (count + K - 1) K
    have rest := Nat.mod_lt (count + K - 1) pos
    rw [Nat.mul_comm] at split
    omega
  rw [rounds _ le_rfl, Nat.min_eq_right enough]

theorem evaluateBatch_eq {K K_eff : ℕ} (few : K_eff ≤ K) {arena : Arena}
    (space : HasRoom (some arena) (8 * 2 ^ b)) (polynomial : ℕ → Gf64[X])
    (small : ∀ k < K_eff, (polynomial k).degree < (2 ^ a : ℕ)) (poly_p : ℕ → Gf64)
    (coefficients : ∀ k < K_eff, ∀ i < 2 ^ a, poly_p (k * 2 ^ a + i) = (polynomial k).coeff i) :
    ∃ p_at_y, ctx.evaluateBatch kernels K K_eff arena poly_p = some p_at_y ∧
      ∀ k < K_eff, ∀ r < 2 ^ b, p_at_y (k * 2 ^ b + r) = (polynomial k).eval (y r) := by
  have bytes : SIZE_MAX / 8 < SIZE_MAX := by decide
  have room := prepared.memory_x
  have pos := Nat.two_pow_pos a
  have count : 2 ^ a - 1 + 1 = 2 ^ a := by omega
  have whole {k : ℕ} (member : k < K_eff) :
      firstTerms (view poly_p (k * 2 ^ a)) (2 ^ a) = polynomial k :=
    firstTerms_eq (coefficients k member) fun i beyond => coeff_eq_zero_of_degree_lt
      ((small k member).trans_le (Nat.cast_le.mpr beyond))
  rw [FengerContext.evaluateBatch, prepared.deg_p, prepared.R, prepared.N]
  split
  case isTrue direct =>
    refine ⟨_, rfl, fun k member r within => ?_⟩
    have row : (k * 2 ^ b + r) / 2 ^ b = k ∧ (k * 2 ^ b + r) % 2 ^ b = r := by
      rw [Nat.mul_comm, Nat.mul_add_div (Nat.two_pow_pos b), Nat.mul_add_mod, Nat.mod_eq_of_lt within,
        Nat.div_eq_of_lt within, Nat.add_zero]
      exact ⟨rfl, rfl⟩
    rw [row.1, row.2, prepared.tree_y.leaf within, fenger_horner_eq _ (by omega), count, whole member]
  case isFalse walked =>
    obtain ⟨p_at_y, last, run, values, -⟩ := recurse_batch_evaluates
      ⟨kernels, ctx.tree_y, K_eff, (6 * K + 4) * 2 ^ b, 4 * 2 ^ b⟩ prepared.tree_y prepared.memory_y le_rfl
      space prepared.recip_pool polynomial (Nat.zero_add b) ⟨.outside poly_p, 2 ^ a, fun _ => 2 ^ a - 1⟩
      Nat.one_pos (fun _ => 0) (fun _ => 0) 0 trivial (fun k _ => by dsimp only; omega)
      (by
        rw [Nat.zero_add]
        exact Nat.mul_le_mul_right _ (show 6 * K_eff + 2 ≤ 6 * K + 4 by omega))
      fun k member => by
        rw [Dividends.polynomial, Dividends.word, Operand.read, count, whole member, sub_self]
        exact dvd_zero _
    dsimp only
    rw [prepared.tree_y.num_levels, Nat.add_sub_cancel, run]
    refine ⟨p_at_y, rfl, fun k member r within => ?_⟩
    rw [values k member r within, if_pos (by omega)]

/-- A pass writes its words one after the other. -/
theorem executePass_eq (real : ctx.num_recovery_real ≤ 2 ^ b) (input : ℕ → Gf64) (B : ℕ) {K K_eff : ℕ}
    (few : K_eff ≤ K) {arena : Arena} (space : HasRoom (some arena) (8 * 2 ^ b)) (out : ℕ → Gf64)
    (w0 : ℕ) :
    ctx.executePass kernels input B K arena out w0 K_eff =
      some ((List.range K_eff).foldl (fun out k =>
        ctx.scatter out B (w0 + k) (recoveryWord ctx x y a input B (w0 + k))) out) := by
  have weighted {k : ℕ} : combination (Finset.range (2 ^ a)) x (view (fun p =>
      ctx.gather input B (w0 + p / ctx.N) (p % ctx.N) * ctx.V_prime (p % ctx.N) *
        ctx.V_prime_inv (p % ctx.N)) (k * 2 ^ a)) = numerator ctx x a input B (w0 + k) :=
    combination_congr x fun c member => by
      have inside := Finset.mem_range.mp member
      rw [view, prepared.N, Nat.mul_comm k, Nat.mul_add_div (Nat.two_pow_pos a), Nat.mul_add_mod,
        Nat.mod_eq_of_lt inside, Nat.div_eq_of_lt inside, Nat.add_zero]
  rw [FengerContext.executePass]
  dsimp only
  obtain ⟨poly_p, run, coefficients⟩ := fenger_interp_batch_eq
    ⟨kernels, ctx.tree_x, K_eff, 8 * K * ctx.N, 32 * ctx.N⟩ prepared.tree_x prepared.memory_x
    (by rw [prepared.N]) (fun p => ctx.gather input B (w0 + p / ctx.N) (p % ctx.N) *
      ctx.V_prime (p % ctx.N) * ctx.V_prime_inv (p % ctx.N)) (fun _ => 0) (by
        rw [prepared.N]
        exact Nat.mul_le_mul_right _ (show 6 * K_eff ≤ 8 * K by omega))
  simp only [weighted] at coefficients
  obtain ⟨p_at_y, evaluated, values⟩ := evaluateBatch_eq prepared kernels few space
    (fun k => numerator ctx x a input B (w0 + k)) (fun k _ => numerator_degree input B (w0 + k)) poly_p
    coefficients
  rw [run]
  simp only [Option.bind_eq_bind, Option.bind_some]
  rw [evaluated, Option.bind_some, prepared.tree_y.num_points]
  refine congrArg some (List.foldl_ext _ _ _ fun out k member => scatter_congr _ _ _ fun r inside => ?_)
  rw [gf64_elem_mul, if_pos inside, view, values k (List.mem_range.mp member) r (by omega), recoveryWord]

theorem gf64_fenger_execute_batched_eq (real : ctx.num_recovery_real ≤ 2 ^ b) (input : ℕ → Gf64) (B : ℕ)
    (out : ℕ → Gf64) (w_start w_end : ℕ) {K : ℕ} (pos : 0 < K) :
    ctx.gf64_fenger_execute_batched kernels input B out w_start w_end K =
      some ((List.range' w_start (w_end - w_start)).foldl (fun out w =>
        ctx.scatter out B w (recoveryWord ctx x y a input B w)) out) := by
  have memory_x := prepared.memory_x
  have memory_y := prepared.memory_y
  have some_x := Nat.two_pow_pos a
  have space : HasRoom (some (⟨8 * max ctx.N ctx.R, 0⟩ : Arena)) (8 * 2 ^ b) := by
    intro own same
    cases same
    rw [prepared.N, prepared.R]
    have bytes : SIZE_MAX / 8 ≤ SIZE_MAX := by decide
    exact ⟨by dsimp only; omega, by dsimp only; omega⟩
  rw [FengerContext.gf64_fenger_execute_batched, gf64_arena_init, prepared.N, prepared.R,
    if_neg (by omega), if_neg (by omega), ← prepared.N, ← prepared.R]
  simp only [Option.bind_eq_bind, Option.bind_some]
  exact foldlM_passes pos w_start (w_end - w_start) _ out fun out pass inside => by
    have width : (if w_end - (w_start + pass * K) < K then w_end - (w_start + pass * K) else K) =
        min K (w_end - w_start - pass * K) := by
      split <;> omega
    rw [width, executePass_eq prepared kernels real input B (Nat.min_le_left _ _) space]

/-- With either number of words, the words are written one after the other. -/
theorem gf64_fenger_execute_eq (real : ctx.num_recovery_real ≤ 2 ^ b) (e : Option ℤ)
    (input : ℕ → Gf64) {B : ℕ} (someWords : B ≠ 0) (out : ℕ → Gf64) (w_start w_end : ℕ) :
    gf64_fenger_execute kernels e (some ctx) input B out w_start w_end =
      some ((List.range' w_start (w_end - w_start)).foldl (fun out w =>
        ctx.scatter out B w (recoveryWord ctx x y a input B w)) out) := by
  rw [gf64_fenger_execute]
  split
  case isTrue nothing =>
    have none : w_end - w_start = 0 := by omega
    rw [none]
    rfl
  case isFalse =>
    dsimp only
    split
    case isTrue many =>
      exact gf64_fenger_execute_batched_eq prepared kernels real input B out w_start w_end (by omega)
    case isFalse =>
      exact FallibleLoops.foldlM_some _ _ _ fun w _ out =>
        executeWord_eq prepared kernels real input B out w

end Word

/-- The contexts that preparations return for numbers of points that they allow. -/
inductive IsContext (kernels : Kernels) (inverses : InverseKernels) (ctx : FengerContext) : Prop
  | whole (firstInput firstRecovery : BitVec 64) (a b : ℕ)
      (returned : gf64_fenger_prepare kernels inverses firstInput firstRecovery (2 ^ a) (2 ^ b) =
        some (some ctx))
  | padded (firstInput firstRecovery syntheticInputBase : BitVec 64)
      (numInputs numRecovery a b : ℕ) (inputs : numInputs ≤ 2 ^ a) (recovery : numRecovery ≤ 2 ^ b)
      (returned : gf64_fenger_prepare_padded kernels inverses firstInput firstRecovery numInputs
        numRecovery (2 ^ a) (2 ^ b) syntheticInputBase = some (some ctx))

theorem IsContext.prepared {kernels : Kernels} {inverses : InverseKernels} {ctx : FengerContext}
    (isContext : IsContext kernels inverses ctx) :
    ∃ x y a b, Prepared ctx x y a b ∧ ctx.num_recovery_real ≤ 2 ^ b := by
  cases isContext with
  | whole firstInput firstRecovery a b returned =>
    rw [gf64_fenger_prepare] at returned
    split at returned
    · cases Option.some.inj returned
    · obtain ⟨found, core, same⟩ := Option.map_eq_some_iff.mp returned
      cases same
      obtain ⟨prepared, -, real⟩ := prepared_of_preparePoints core
      exact ⟨_, _, a, b, prepared, real.le⟩
  | padded firstInput firstRecovery syntheticInputBase numInputs numRecovery a b inputs recovery returned =>
    rw [gf64_fenger_prepare_padded] at returned
    split at returned
    · cases Option.some.inj returned
    · obtain ⟨found, core, same⟩ := Option.map_eq_some_iff.mp returned
      cases same
      obtain ⟨prepared, -, real⟩ := prepared_of_preparePoints core
      exact ⟨_, _, a, b, prepared, real.trans_le recovery⟩

/-- For every prepared context, all data and every width, passes write what the loop over the words
writes, and so do calls for one word each. -/
theorem passes_write_words (kernels : Kernels) (inverses : InverseKernels) (ctx : FengerContext)
    (isContext : IsContext kernels inverses ctx) (input : ℕ → Gf64) (B : ℕ) (out : ℕ → Gf64)
    (w_start w_end : ℕ) :
    (∃ last, ∀ K, 0 < K → K ≤ FENGER_BATCH_K_MAX →
      (List.range' w_start (w_end - w_start)).foldlM (ctx.executeWord kernels input B) out = some last ∧
      ctx.gf64_fenger_execute_batched kernels input B out w_start w_end K = some last) ∧
    ∀ e e', gf64_fenger_execute kernels e (some ctx) input B out w_start w_end =
      (List.range' w_start (w_end - w_start)).foldlM (fun out w =>
        gf64_fenger_execute kernels e' (some ctx) input B out w (w + 1)) out := by
  obtain ⟨x, y, a, b, prepared, real⟩ := isContext.prepared
  refine ⟨⟨_, fun K pos _ => ⟨FallibleLoops.foldlM_some _ _ _ fun w _ out =>
    executeWord_eq prepared kernels real input B out w,
    gf64_fenger_execute_batched_eq prepared kernels real input B out w_start w_end pos⟩⟩, fun e e' => ?_⟩
  by_cases empty : B = 0
  · have nothing (e : Option ℤ) (out : ℕ → Gf64) (w_start w_end : ℕ) :
        gf64_fenger_execute kernels e (some ctx) input B out w_start w_end = some out :=
      if_pos (.inl empty)
    rw [nothing, FallibleLoops.foldlM_some (fun out _ => out) _ _ fun w _ out => nothing e' out w (w + 1),
      List.foldl_fixed]
  · rw [gf64_fenger_execute_eq prepared kernels real e input empty, FallibleLoops.foldlM_some
      (fun out w => ctx.scatter out B w (recoveryWord ctx x y a input B w)) _ _ fun w _ out => ?_]
    rw [gf64_fenger_execute_eq prepared kernels real e' input empty, Nat.add_sub_cancel_left]
    rfl

/-- Four inputs and two recovery points. -/
theorem passes_write_words_four : ∃ ctx, ∀ out,
    gf64_fenger_prepare ⟨false, true⟩ ⟨true, .scalar⟩ 0 4 (2 ^ 2) (2 ^ 1) = some (some ctx) ∧
      gf64_fenger_execute ⟨false, true⟩ none (some ctx) gf64OfNat 6 out 0 6 =
        (List.range' 0 6).foldlM (fun out w =>
          gf64_fenger_execute ⟨false, true⟩ (some 1) (some ctx) gf64OfNat 6 out w (w + 1)) out := by
  obtain ⟨ctx, core, -⟩ := preparePoints_prepared ⟨false, true⟩ ⟨true, .scalar⟩
    (inputPoint 0 0 (2 ^ 2)) (recoveryPoint 4) 2 1 (2 ^ 2) (2 ^ 1) (by decide) (by decide)
  have returned : gf64_fenger_prepare ⟨false, true⟩ ⟨true, .scalar⟩ 0 4 (2 ^ 2) (2 ^ 1) =
      some (some ctx) := congrArg (Option.map some) core
  exact ⟨ctx, fun out => ⟨returned, (passes_write_words _ _ ctx (.whole 0 4 2 1 returned) _ 6 out 0 6).2
    none (some 1)⟩⟩

/-! ## The product with the Cauchy matrix -/

section Cauchy

variable {ctx : FengerContext} {x y : ℕ → Gf64} {a b : ℕ} (prepared : Prepared ctx x y a b)

include prepared

/-- With distinct points, a word is the sum of fractions. -/
theorem recoveryWord_eq (distinct : Set.InjOn x (Finset.range (2 ^ a)))
    (few : ctx.num_inputs_real ≤ 2 ^ a) {r : ℕ} (inside : r < 2 ^ b)
    (apart : ∀ c < 2 ^ a, x c ≠ y r) (input : ℕ → Gf64) (B w : ℕ) :
    recoveryWord ctx x y a input B w r =
      ∑ c ∈ Finset.range ctx.num_inputs_real, input (c * B + w) * (x c + y r)⁻¹ := by
  have values : numerator ctx x a input B w =
      combination (Finset.range (2 ^ a)) x (ctx.gather input B w) :=
    combination_congr x fun c member => by
      have within := Finset.mem_range.mp member
      have weight := Lagrange.nodalWeight_ne_zero distinct member
      rw [Lagrange.nodalWeight_eq_eval_derivative_nodal member,
        ← prepared.V_prime_inv c within] at weight
      rw [prepared.V_prime c within, mul_assoc, inv_mul_cancel₀ weight, mul_one]
  rw [recoveryWord, values, prepared.V_at_y_inv r inside,
    combination_eval _ _ _ fun c member => apart c (Finset.mem_range.mp member)]
  refine (Finset.sum_subset (Finset.range_subset_range.mpr few) fun c _ padding => ?_).symm.trans
    (Finset.sum_congr rfl fun c member => ?_)
  · rw [FengerContext.gather, if_neg (mt Finset.mem_range.mpr padding), zero_mul]
  · rw [FengerContext.gather, if_pos (Finset.mem_range.mp member), CharTwo.sub_eq_add, add_comm (y r)]

end Cauchy

/-- The words after the loop. -/
theorem scatter_range (ctx : FengerContext) (B : ℕ) (word : ℕ → ℕ → Gf64) (out : ℕ → Gf64)
    (w_start count r : ℕ) {j : ℕ} (inside : j < B) (room : w_start + count ≤ B) :
    (List.range' w_start count).foldl (fun out w => ctx.scatter out B w (word w)) out (r * B + j) =
      if r < ctx.num_recovery_real ∧ w_start ≤ j ∧ j < w_start + count then word j r
      else out (r * B + j) := by
  induction count with
  | zero =>
    rw [if_neg (by omega)]
    rfl
  | succ count ih =>
    rw [List.range'_1_concat, List.foldl_append, List.foldl_cons, List.foldl_nil, FengerContext.scatter,
      Slabs.foldl_update_slabs _ _ (by omega) _ _ _ inside, ih (by omega)]
    by_cases here : r < ctx.num_recovery_real ∧ j = w_start + count
    · rw [if_pos here, if_pos (by omega), here.2]
    · rw [if_neg here]
      exact if_congr (by omega) rfl rfl

/-- For all distinct input points apart from the recovery points, padded or not, the preparation
returns, and the execution writes the product with the Cauchy matrix and nothing else. -/
theorem execution_multiplies (kernels : Kernels) (inverses : InverseKernels) (x y : ℕ → Gf64)
    (numInputs numRecovery a b : ℕ) (someInputs : 0 < numInputs) (someRecovery : 0 < numRecovery)
    (inputs : numInputs ≤ 2 ^ a) (recovery : numRecovery ≤ 2 ^ b)
    (memory_x : (a + 1) * 2 ^ a + (2 ^ (a + 1) - 1) ≤ SIZE_MAX / 8)
    (memory_y : (b + 1) * 2 ^ b + (2 ^ (b + 1) - 1) ≤ SIZE_MAX / 8)
    (distinct : Set.InjOn x (Finset.range (2 ^ a)))
    (apart : ∀ c < 2 ^ a, ∀ r < numRecovery, x c ≠ y r) :
    ∃ ctx, preparePoints kernels inverses x y (2 ^ a) (2 ^ b) numInputs numRecovery = some ctx ∧
      (∀ firstInput firstRecovery syntheticInputBase,
        x = inputPoint firstInput syntheticInputBase numInputs → y = recoveryPoint firstRecovery →
          gf64_fenger_prepare_padded kernels inverses firstInput firstRecovery numInputs numRecovery
            (2 ^ a) (2 ^ b) syntheticInputBase = some (some ctx)) ∧
      (∀ firstInput firstRecovery, numInputs = 2 ^ a → numRecovery = 2 ^ b →
        x = inputPoint firstInput 0 numInputs → y = recoveryPoint firstRecovery →
          gf64_fenger_prepare kernels inverses firstInput firstRecovery (2 ^ a) (2 ^ b) =
            some (some ctx)) ∧
      ∀ e input B out w_start w_end, w_end ≤ B → ∃ last,
        gf64_fenger_execute kernels e (some ctx) input B out w_start w_end = some last ∧
        ∀ r, ∀ w < B, last (r * B + w) =
          if r < numRecovery ∧ w_start ≤ w ∧ w < w_end then
            ∑ c ∈ Finset.range numInputs, input (c * B + w) * (x c + y r)⁻¹
          else out (r * B + w) := by
  obtain ⟨ctx, core, prepared, rfl, rfl⟩ := preparePoints_prepared kernels inverses x y a b numInputs
    numRecovery memory_x memory_y
  have whole_a := Nat.two_pow_pos a
  have whole_b := Nat.two_pow_pos b
  refine ⟨ctx, core, ?_, ?_, fun e input B out w_start w_end room => ?_⟩
  · rintro firstInput firstRecovery syntheticInputBase rfl rfl
    rw [gf64_fenger_prepare_padded, if_neg (by omega)]
    exact congrArg (Option.map some) core
  · rintro firstInput firstRecovery exact_x exact_y rfl rfl
    rw [gf64_fenger_prepare, if_neg (by omega)]
    rw [exact_x, exact_y] at core
    exact congrArg (Option.map some) core
  · by_cases empty : B = 0
    · exact ⟨out, if_pos (.inl empty), fun r w inside => absurd inside (by omega)⟩
    · refine ⟨_, gf64_fenger_execute_eq prepared kernels recovery e input empty out w_start w_end,
        fun r w inside => ?_⟩
      rcases Nat.lt_or_ge w_start w_end with some_words | no_words
      · rw [scatter_range ctx B _ out w_start _ r inside (by omega)]
        by_cases there : r < ctx.num_recovery_real ∧ w_start ≤ w ∧ w < w_end
        · rw [if_pos (by omega), if_pos there,
            recoveryWord_eq prepared distinct inputs (by omega) fun c within => apart c within r there.1]
        · rw [if_neg (by omega), if_neg there]
      · have nothing : w_end - w_start = 0 := by omega
        rw [nothing, if_neg (by omega)]
        rfl

/-- Three inputs padded to four, for two recovery points. -/
theorem execution_multiplies_padded : ∃ ctx,
    gf64_fenger_prepare_padded ⟨false, true⟩ ⟨true, .scalar⟩ 0 8 3 2 (2 ^ 2) (2 ^ 1) 10 =
      some (some ctx) ∧
    ∃ last, gf64_fenger_execute ⟨false, true⟩ none (some ctx) (fun _ => 1) 1 (fun _ => 0) 0 1 =
      some last ∧
      last (1 * 1 + 0) = ∑ c ∈ Finset.range 3, 1 * (inputPoint 0 10 3 c + recoveryPoint 8 1)⁻¹ := by
  obtain ⟨ctx, -, returned, -, executes⟩ := execution_multiplies ⟨false, true⟩ ⟨true, .scalar⟩
    (inputPoint 0 10 3) (recoveryPoint 8) 3 2 2 1 (by decide) (by decide) (by decide) (by decide)
    (by decide) (by decide) (by
      intro first one second two same
      have small : first < 4 := Finset.mem_range.mp one
      have other : second < 4 := Finset.mem_range.mp two
      interval_cases first <;> interval_cases second <;> first | rfl | exact absurd same (by decide))
    (by decide)
  obtain ⟨last, run, words⟩ := executes none (fun _ => 1) 1 (fun _ => 0) 0 1 le_rfl
  exact ⟨ctx, returned 0 8 10 rfl rfl, last, run, words 1 0 Nat.one_pos⟩

end Par3
