import Par3.MultiPointContract
import Par3.Gf64InvertContract

/-!
# Barycentric weights

The derivative of the product of all lines is evaluated at all points, and the values are inverted in
a batch. In characteristic two the derivative keeps the coefficients of odd powers.
-/

namespace Par3

open Polynomial ProductTree

/-! ## Inverses in a batch -/

/-- The entries of the dispatch table. -/
inductive InverseMethod
  | scalar
  | ssse3
  | avx2
  | avx512

/-- The elements in whole blocks of lanes. -/
def InverseMethod.blocked : InverseMethod → ℕ → ℕ
  | .scalar, _ => 0
  | .ssse3, N => N / 2 * 2
  | .avx2, N => N / 4 * 4
  | .avx512, N => N / 8 * 8

def GF64_INV_MAX_ITER : ℕ := 128

/-- The iterations of one lane, which rests when it is done. -/
def laneLoop : ℕ → EuclidState → Option EuclidState
  | 0, state => some state
  | iterations + 1, state =>
    if state.r1 = 0 ∨ state.r1 = 1 then some state
    else do
      let state ← state.step
      laneLoop iterations state

def inverseLane (a : BitVec 64) : Option (BitVec 64) := do
  let state ← laneLoop GF64_INV_MAX_ITER
    { r0 := 0x1B
      r1 := a
      s0 := 0
      s1 := 1
      deg_r0 := 64
      deg_r1 := if a = 0 then -1 else 63 - my_clzll a }
  some (if state.r1 = 0 then 0 else state.s1)

/-- Blocks go through the lanes, and what is left over is inverted one by one. -/
def InverseMethod.element (method : InverseMethod) (input : ℕ → Gf64) (N i : ℕ) :
    Option (BitVec 64) :=
  if i < method.blocked N then inverseLane (input i).bits else gf64_inverse 200 (input i).bits

def gf64_inverse_batch (method : InverseMethod) (out input : ℕ → Gf64) (N : ℕ) :
    Option (ℕ → Gf64) :=
  (List.range N).foldlM (fun out i => do
    let inverse ← method.element input N i
    some (Function.update out i ⟨inverse⟩)) out

/-- Eight lanes of `gf64_invert_ita_batch`. -/
def itaBlock (a_in : ℕ → BitVec 64) : ℕ → BitVec 64 :=
  let t := (List.range' 2 62).foldl (fun t _ => gf64_mul_avx512 t (gf64_square_avx512 t 8) a_in 8) a_in
  gf64_square_avx512 t 8

def gf64_invert_ita_batch (out input : ℕ → Gf64) (N : ℕ) : ℕ → Gf64 :=
  (List.range N).foldl (fun out i =>
    Function.update out i (if i < N / 8 * 8 then
      ⟨itaBlock (fun lane => (input (i / 8 * 8 + lane)).bits) (i % 8)⟩
    else ⟨gf64_invert_ita_one (input i).bits⟩)) out

/-! ## The weights -/

/-- What the machine offers to inversions. -/
structure InverseKernels where
  has_vpclmulqdq : Bool
  method : InverseMethod

/-- The weights of the points of a tree. -/
def gf64_barycentric_weights (kernels : Kernels) (inverses : InverseKernels) (tree : SubproductTree)
    (weights_out : ℕ → Gf64) : Option (ℕ → Gf64) :=
  if tree.num_points = 0 then some weights_out
  else do
    let N := tree.num_points
    let root := tree.level_data 0 0
    let deriv := fun j => if j < N then if j &&& 1 = 0 then root (j + 1) else 0 else 0
    let deriv_at_points ← gf64_multi_point_eval kernels deriv (N - 1) tree fun _ => 0
    if inverses.has_vpclmulqdq then some (gf64_invert_ita_batch weights_out deriv_at_points N)
    else gf64_inverse_batch inverses.method weights_out deriv_at_points N

/-! ## Every batch inverts -/

/-- A lane does what the loop does that inverts one word, as long as it has enough iterations. -/
theorem laneLoop_inverse {iterations : ℕ} {state : EuclidState} {inverse : BitVec 64}
    (found : inverseLoop (iterations + 1) state = some inverse) :
    ∃ last, laneLoop iterations state = some last ∧ (last.r1 = 0 ∨ last.r1 = 1) ∧
      (if last.r1 = 0 then 0 else last.s1) = inverse := by
  induction iterations generalizing state with
  | zero =>
    refine ⟨state, rfl, ?_⟩
    rw [inverseLoop] at found
    split at found
    case isTrue => cases step : state.step <;> rw [step] at found <;> cases found
    case isFalse done =>
      refine ⟨by tauto, ?_⟩
      split at found
      case isTrue zero => cases found; exact if_pos zero
      case isFalse some => cases found; exact if_neg some
  | succ iterations ih =>
    rw [inverseLoop] at found
    rw [laneLoop]
    split at found
    case isTrue more =>
      rw [if_neg fun done => done.elim more.2 more.1]
      cases step : state.step with
      | none => rw [step] at found; cases found
      | some next =>
        rw [step] at found
        exact ih found
    case isFalse done =>
      have stops : state.r1 = 0 ∨ state.r1 = 1 := by tauto
      rw [if_pos stops]
      refine ⟨state, rfl, stops, ?_⟩
      split at found
      case isTrue zero => cases found; exact if_pos zero
      case isFalse some => cases found; exact if_neg some

theorem inverseLane_eq (a : BitVec 64) : inverseLane a = some ((⟨a⟩ : Gf64)⁻¹).bits := by
  by_cases zero : a = 0
  · rw [zero]
    have none : (⟨0⟩ : Gf64)⁻¹ = 0 := inv_zero
    rw [none]
    rfl
  · obtain ⟨last, run, -, value⟩ := laneLoop_inverse (inverseLoop_start zero (le_refl 129))
    rw [inverseLane, GF64_INV_MAX_ITER, run]
    exact congrArg some value

theorem gf64_inverse_all (a : BitVec 64) : gf64_inverse 200 a = some ((⟨a⟩ : Gf64)⁻¹).bits := by
  by_cases zero : a = 0
  · rw [zero]
    have none : (⟨0⟩ : Gf64)⁻¹ = 0 := inv_zero
    rw [none]
    rfl
  · exact gf64_inverse_eq zero le_rfl

/-- Whatever the method, all words are inverted, and zero stays zero. -/
theorem gf64_inverse_batch_eq (method : InverseMethod) (out input : ℕ → Gf64) (N : ℕ) :
    gf64_inverse_batch method out input N = some fun i => if i < N then (input i)⁻¹ else out i := by
  have body : (fun (out : ℕ → Gf64) (i : ℕ) => do
      let inverse ← method.element input N i
      some (Function.update out i ⟨inverse⟩)) =
        fun out i => pure (Function.update out i (input i)⁻¹) := by
    funext out i
    rw [InverseMethod.element, inverseLane_eq, gf64_inverse_all, ite_self]
    rfl
  rw [gf64_inverse_batch, body, List.foldlM_pure,
    FallibleLoops.foldl_update_range fun i _ => (input i)⁻¹]
  rfl

theorem itaBlock_eq (a_in : ℕ → BitVec 64) {lane : ℕ} (inside : lane < 8) :
    itaBlock a_in lane = ((⟨a_in lane⟩ : Gf64)⁻¹).bits := by
  have chain (count : ℕ) : ∀ lane < 8,
      (List.range' 2 count).foldl (fun t _ => gf64_mul_avx512 t (gf64_square_avx512 t 8) a_in 8) a_in lane =
        ((⟨a_in lane⟩ : Gf64) ^ (2 ^ (count + 1) - 1)).bits := by
    induction count with
    | zero =>
      intro lane _
      rw [Nat.zero_add, pow_one, show 2 - 1 = 1 from rfl, pow_one]
      rfl
    | succ count ih =>
      intro lane inside
      rw [List.range'_concat, List.foldl_append, List.foldl_cons, List.foldl_nil,
        gf64_mul_avx512_eq _ _ _ inside, gf64_square_avx512_word _ inside, ih lane inside,
        ← power_step]
  rw [itaBlock, gf64_square_avx512_word _ inside, chain 62 lane inside]
  by_cases zero : a_in lane = 0
  · rw [zero]
    have none : (⟨0⟩ : Gf64) = 0 := rfl
    rw [none, inv_zero, zero_pow (by norm_num), zero_mul]
  · have bits (word : Gf64) : (⟨word.bits⟩ : Gf64) = word := rfl
    rw [bits, power_inverse fun same => zero (congrArg BinaryField.Word.bits same)]

theorem gf64_invert_ita_one_all (a : BitVec 64) :
    gf64_invert_ita_one a = ((⟨a⟩ : Gf64)⁻¹).bits := by
  by_cases zero : a = 0
  · rw [zero]
    have none : (⟨0⟩ : Gf64)⁻¹ = 0 := inv_zero
    rw [none]
    rfl
  · exact gf64_invert_ita_one_eq zero

theorem gf64_invert_ita_batch_eq (out input : ℕ → Gf64) (N : ℕ) :
    gf64_invert_ita_batch out input N = fun i => if i < N then (input i)⁻¹ else out i := by
  have body : (fun (out : ℕ → Gf64) (i : ℕ) => Function.update out i
      (if i < N / 8 * 8 then
        ⟨itaBlock (fun lane => (input (i / 8 * 8 + lane)).bits) (i % 8)⟩
      else ⟨gf64_invert_ita_one (input i).bits⟩)) =
        fun out i => Function.update out i (input i)⁻¹ := by
    funext out i
    rw [itaBlock_eq _ (Nat.mod_lt i (by decide)), Nat.div_add_mod', gf64_invert_ita_one_all, ite_self]
  rw [gf64_invert_ita_batch, body, FallibleLoops.foldl_update_range fun i _ => (input i)⁻¹]

/-! ## The derivative -/

/-- In characteristic two, the coefficients of odd powers move down. -/
theorem firstTerms_derivative {z : ℕ → Gf64} {N : ℕ} {p : Gf64[X]} (degree : p.natDegree ≤ N)
    (odd : ∀ k < N, z k = if k % 2 = 0 then p.coeff (k + 1) else 0) :
    firstTerms z N = derivative p := by
  refine firstTerms_eq (fun k inside => ?_) fun k beyond => ?_
  · rw [odd k inside, coeff_derivative, ← Nat.cast_succ, CharTwo.natCast_eq_ite]
    by_cases even : k % 2 = 0
    · rw [if_pos even, if_neg (by rw [Nat.even_iff]; omega), mul_one]
    · rw [if_neg even, if_pos (by rw [Nat.even_iff]; omega), mul_zero]
  · rw [coeff_derivative, coeff_eq_zero_of_natDegree_lt (by omega), zero_mul]

section Weights

variable {tree : SubproductTree} {points : ℕ → Gf64} {L : ℕ}

/-- The first words of the tree are the product over all points. -/
theorem IsTree.root (isTree : IsTree tree points L) {k : ℕ} (inside : k ≤ 2 ^ L) :
    tree.level_data 0 0 k = (nodePolynomial points L 0).coeff k := by
  have node := isTree.nodes (Nat.zero_add L) 0 (Nat.two_pow_pos 0) k inside
  rwa [Nat.zero_mul] at node

theorem root_eq (points : ℕ → Gf64) (L : ℕ) :
    nodePolynomial points L 0 = Lagrange.nodal (Finset.range (2 ^ L)) points := by
  rw [nodePolynomial, Nat.zero_mul, Nat.zero_add, Nat.one_mul, Finset.range_eq_Ico]

/-- The evaluation of a polynomial of a smaller degree. -/
theorem gf64_multi_point_eval_value (kernels : Kernels) (isTree : IsTree tree points L)
    (memory : 8 * 2 ^ L ≤ SIZE_MAX / 8) (f out : ℕ → Gf64) :
    gf64_multi_point_eval kernels f (2 ^ L - 1) tree out = some fun i =>
      if i < 2 ^ L then (firstTerms f (2 ^ L)).eval (points i) else out i := by
  have pos := Nat.two_pow_pos L
  have addresses : SIZE_MAX / 8 < SIZE_MAX := by decide
  have count : 2 ^ L - 1 + 1 = 2 ^ L := by omega
  rw [gf64_multi_point_eval_eq kernels isTree memory]
  refine congrArg some (funext fun i => ?_)
  rw [horner_eval_poly_eq f (by omega), count]

/-- The weights are the inverses of the derivative at the points. -/
theorem gf64_barycentric_weights_eq (kernels : Kernels) (inverses : InverseKernels)
    (isTree : IsTree tree points L) (memory : 8 * 2 ^ L ≤ SIZE_MAX / 8) (weights_out : ℕ → Gf64) :
    gf64_barycentric_weights kernels inverses tree weights_out = some fun i =>
      if i < 2 ^ L then ((derivative (nodePolynomial points L 0)).eval (points i))⁻¹
      else weights_out i := by
  rw [gf64_barycentric_weights, isTree.num_points, if_neg (Nat.two_pow_pos L).ne']
  dsimp only
  rw [gf64_multi_point_eval_value kernels isTree memory,
    firstTerms_derivative (nodePolynomial_degree points L 0).le fun k inside => ?odd]
  case odd =>
    rw [if_pos inside, Nat.and_one_is_mod, isTree.root (by omega)]
  simp only [Option.bind_eq_bind, Option.bind_some]
  rw [gf64_inverse_batch_eq, gf64_invert_ita_batch_eq, ite_self]
  refine congrArg some (funext fun i => ?_)
  split
  case isTrue => rfl
  case isFalse => rfl

end Weights

/-- Every node of the tree over any points is the monic product of the lines of the leaves below it.
The weights are the inverses of the products of the distances to all other points, which are also the
values of the derivative of the root; for distinct points no product is zero. -/
theorem weights_of_products (kernels : Kernels) (inverses : InverseKernels) (points : ℕ → Gf64)
    (L : ℕ) (memory : (L + 1) * 2 ^ L + (2 ^ (L + 1) - 1) ≤ SIZE_MAX / 8)
    (weights_out : ℕ → Gf64) :
    ∃ tree weights, gf64_subproduct_tree_build kernels points (2 ^ L) = some tree ∧
      tree.num_levels = L + 1 ∧
      (∀ lev < tree.num_levels, tree.level_lens lev * tree.level_degs lev = 2 ^ L ∧
        ∀ i < tree.level_lens lev,
          firstTerms (tree.level_data lev (i * (tree.level_degs lev + 1))) (tree.level_degs lev + 1) =
            ∏ j ∈ Finset.Ico (i * tree.level_degs lev) ((i + 1) * tree.level_degs lev),
              (X + C (points j))) ∧
      gf64_barycentric_weights kernels inverses tree weights_out = some weights ∧
      (Set.InjOn points (Finset.range (2 ^ L)) → ∀ j < 2 ^ L,
        ∏ k ∈ (Finset.range (2 ^ L)).erase j, (points j + points k) ≠ 0 ∧
        weights j = 1 / ∏ k ∈ (Finset.range (2 ^ L)).erase j, (points j + points k) ∧
        weights j =
          ((derivative (firstTerms (tree.level_data 0 0) (2 ^ L + 1))).eval (points j))⁻¹) := by
  obtain ⟨tree, built, isTree⟩ := gf64_subproduct_tree_build_eq kernels points L memory
  refine ⟨tree, _, built, isTree.num_levels, fun lev inside => ?_,
    gf64_barycentric_weights_eq kernels inverses isTree (scratch_fits memory) weights_out,
    fun distinct j inside => ?_⟩
  · obtain ⟨below, level⟩ := Nat.exists_eq_add_of_le
      (Nat.lt_succ_iff.mp (isTree.num_levels ▸ inside))
    rw [isTree.level_lens level.symm, isTree.level_degs level.symm]
    refine ⟨by rw [← pow_add, ← level], fun i node => ?_⟩
    rw [isTree.child_firstTerms level.symm node, nodePolynomial, Lagrange.nodal]
    exact Finset.prod_congr rfl fun k _ => CharTwo.sub_eq_add X _
  · have member : j ∈ Finset.range (2 ^ L) := Finset.mem_range.mpr inside
    have root : firstTerms (tree.level_data 0 0) (2 ^ L + 1) = nodePolynomial points L 0 :=
      firstTerms_eq (fun k within => isTree.root (Nat.lt_succ_iff.mp within)) fun k beyond =>
        coeff_eq_zero_of_natDegree_lt (by rw [nodePolynomial_degree]; omega)
    have value : (derivative (nodePolynomial points L 0)).eval (points j) =
        ∏ k ∈ (Finset.range (2 ^ L)).erase j, (points j + points k) := by
      rw [root_eq, Lagrange.eval_nodal_derivative_eval_node_eq member, Lagrange.eval_nodal]
      exact Finset.prod_congr rfl fun k _ => CharTwo.sub_eq_add _ _
    have nonzero : ∏ k ∈ (Finset.range (2 ^ L)).erase j, (points j + points k) ≠ 0 := by
      refine Finset.prod_ne_zero_iff.mpr fun k other => ?_
      rw [← CharTwo.sub_eq_add]
      refine sub_ne_zero.mpr fun same => (Finset.mem_erase.mp other).1 ?_
      exact (distinct member (Finset.mem_erase.mp other).2 same).symm
    rw [if_pos inside, root, value, one_div]
    exact ⟨nonzero, rfl, rfl⟩

/-- Two points. -/
theorem weights_of_products_two : ∃ tree weights,
    gf64_subproduct_tree_build ⟨false, true⟩ (fun i => if i = 0 then ⟨5⟩ else ⟨6⟩) (2 ^ 1) = some tree ∧
      gf64_barycentric_weights ⟨false, true⟩ ⟨false, .ssse3⟩ tree (fun _ => 0) = some weights ∧
      weights 0 = 1 / ∏ k ∈ (Finset.range (2 ^ 1)).erase 0, (⟨5⟩ + if k = 0 then ⟨5⟩ else ⟨6⟩) := by
  obtain ⟨tree, weights, built, -, -, returned, products⟩ := weights_of_products ⟨false, true⟩
    ⟨false, .ssse3⟩ (fun i => if i = 0 then ⟨5⟩ else ⟨6⟩) 1 (by decide) fun _ => 0
  refine ⟨tree, weights, built, returned, (products ?_ 0 (by decide)).2.1⟩
  intro first one second two same
  have small : first < 2 := Finset.mem_range.mp one
  have other : second < 2 := Finset.mem_range.mp two
  interval_cases first <;> interval_cases second <;> first | rfl | exact absurd same (by decide)

end Par3
