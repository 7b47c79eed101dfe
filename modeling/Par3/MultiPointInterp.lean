import Par3.BarycentricWeights
import Par3.Words

/-!
# Interpolation over the tree

The values are divided by those of the derivative at the points, and combined from the leaves to the
root: a node adds what each child has, multiplied by the product of its sibling. Evaluation and
interpolation undo each other.
-/

namespace Par3

open Polynomial ProductTree

/-! ## Combining -/

/-- The combination below a node, with so many levels below it: its coefficients, and the scratch. -/
def gf64_mpi_recurse_deriv (kernels : Kernels) (tree : SubproductTree) (size : ℕ) (z : ℕ → Gf64) :
    ℕ → ℕ → ℕ → (ℕ → Gf64) → (ℕ → Gf64) → ℕ → Option ((ℕ → Gf64) × (ℕ → Gf64))
  | 0, _, out_offset, out_poly, words, _ => some (Function.update out_poly 0 (z out_offset), words)
  | below + 1, node_idx, out_offset, out_poly, words, scratch => do
    let lev := tree.num_levels - 1 - (below + 1)
    let N_at_lev := tree.num_points >>> lev
    let f_size := N_at_lev >>> 1
    let slot0 := scratch
    let slot1 := scratch + N_at_lev
    let slot2 := scratch + 2 * N_at_lev
    let slot3 := scratch + 3 * N_at_lev
    let child_scratch := scratch + 4 * N_at_lev
    let (fL, words) ← gf64_mpi_recurse_deriv kernels tree size z below (2 * node_idx) out_offset
      (view words slot0) words child_scratch
    let words ← putWords size words slot0 f_size fL
    let (fR, words) ← gf64_mpi_recurse_deriv kernels tree size z below (2 * node_idx + 1)
      (out_offset + f_size) (view words slot1) words child_scratch
    let words ← putWords size words slot1 f_size fR
    let P_left := tree.level_data (lev + 1) (2 * node_idx * (f_size + 1))
    let P_right := tree.level_data (lev + 1) ((2 * node_idx + 1) * (f_size + 1))
    let product ← mulPaddedInto kernels (view words slot2) P_right (f_size + 1) (view words slot0)
      f_size N_at_lev
    let words ← putWords size words slot2 N_at_lev product
    let product ← mulPaddedInto kernels (view words slot3) P_left (f_size + 1) (view words slot1)
      f_size N_at_lev
    let words ← putWords size words slot3 N_at_lev product
    some (fun i => if i < N_at_lev then words (slot2 + i) + words (slot3 + i) else out_poly i, words)

/-- Interpolation with given weights. Without weights the values have been multiplied already. -/
def gf64_multi_point_interp_weights (kernels : Kernels) (tree : SubproductTree) (values : ℕ → Gf64)
    (weights : Option (ℕ → Gf64)) (out : ℕ → Gf64) : Option (ℕ → Gf64) :=
  let N := tree.num_points
  if N = 0 then some out
  else if N = 1 then
    some (Function.update out 0
      (match weights with
      | some weights => values 0 * weights 0
      | none => values 0))
  else
    let z := match weights with
      | some weights => fun j => if j < N then values j * weights j else 0
      | none => values
    (gf64_mpi_recurse_deriv kernels tree (8 * N) z (tree.num_levels - 1) 0 0 out (fun _ => 0) 0).map
      Prod.fst

/-- Interpolation, which ends the program when a point is there twice. -/
def gf64_multi_point_interp_internal (kernels : Kernels) (tree : SubproductTree)
    (values out : ℕ → Gf64) : Option (ℕ → Gf64) :=
  let N := tree.num_points
  if N = 0 then some out
  else if N = 1 then some (Function.update out 0 (values 0))
  else do
    let P := tree.level_data 0 0
    let z := fun k => if k < N then if (k + 1) &&& 1 ≠ 0 then P (k + 1) else 0 else 0
    let d ← gf64_multi_point_eval kernels z (N - 1) tree fun _ => 0
    let z ← (List.range N).foldlM (fun z j =>
      if d j = 0 then none else some (Function.update z j (values j * (d j)⁻¹))) z
    gf64_multi_point_interp_weights kernels tree z none out

/-! ## What a node has -/

section Combine

variable {tree : SubproductTree} {points : ℕ → Gf64} {L : ℕ}

/-- The combination over the leaves below a node. -/
noncomputable def nodeCombination (points z : ℕ → Gf64) (below i : ℕ) : Gf64[X] :=
  combination (Finset.Ico (i * 2 ^ below) ((i + 1) * 2 ^ below)) points z

theorem nodeCombination_zero (points z : ℕ → Gf64) (i : ℕ) :
    nodeCombination points z 0 i = C (z i) := by
  rw [nodeCombination, pow_zero, Nat.mul_one, Nat.mul_one, Nat.Ico_succ_singleton, combination,
    Finset.sum_singleton, Finset.erase_singleton, Lagrange.nodal_empty, mul_one]

/-- Each child's combination is multiplied by the product of its sibling. -/
theorem nodeCombination_succ (points z : ℕ → Gf64) (below i : ℕ) :
    nodeCombination points z (below + 1) i =
      nodePolynomial points below (2 * i + 1) * nodeCombination points z below (2 * i) +
        nodePolynomial points below (2 * i) * nodeCombination points z below (2 * i + 1) := by
  have start : i * 2 ^ (below + 1) = 2 * i * 2 ^ below := by ring
  have stop : (i + 1) * 2 ^ (below + 1) = (2 * i + 1 + 1) * 2 ^ below := by ring
  rw [nodeCombination, start, stop, combination_append points z
    (Nat.mul_le_mul_right _ (Nat.le_succ (2 * i))) (Nat.mul_le_mul_right _ (Nat.le_succ _)), mul_comm,
    add_comm, mul_comm, add_comm]
  rfl

theorem nodeCombination_beyond (points z : ℕ → Gf64) (below i : ℕ) {k : ℕ} (beyond : k ≥ 2 ^ below) :
    (nodeCombination points z below i).coeff k = 0 := by
  have degree := combination_degree_lt (Finset.Ico (i * 2 ^ below) ((i + 1) * 2 ^ below)) points z
  rw [Nat.card_Ico, ← Nat.sub_mul, Nat.add_sub_cancel_left, Nat.one_mul] at degree
  exact coeff_eq_zero_of_degree_lt (degree.trans_le (Nat.cast_le.mpr beyond))

/-- The walk below any node ends, and has written the combination of its leaves. -/
theorem recurse_combines (kernels : Kernels) (isTree : IsTree tree points L)
    (memory : 8 * 2 ^ L ≤ SIZE_MAX / 8) (z : ℕ → Gf64) {lev below : ℕ} (level : lev + below = L)
    {node_idx : ℕ} (node : node_idx < 2 ^ lev) (out_poly words : ℕ → Gf64) (place : ℕ)
    (room : place + 8 * 2 ^ below ≤ 8 * 2 ^ L) :
    ∃ last, gf64_mpi_recurse_deriv kernels tree (8 * 2 ^ L) z below node_idx (node_idx * 2 ^ below)
        out_poly words place =
          some (fun i => if i < 2 ^ below then (nodeCombination points z below node_idx).coeff i
            else out_poly i, last) ∧
      ∀ j < place, last j = words j := by
  have addresses : SIZE_MAX / 8 < SIZE_MAX := by decide
  induction below generalizing lev node_idx out_poly words place with
  | zero =>
    refine ⟨words, ?_, fun _ _ => rfl⟩
    rw [gf64_mpi_recurse_deriv, nodeCombination_zero, pow_zero, Nat.mul_one]
    refine congrArg some (Prod.ext (funext fun i => ?_) rfl)
    dsimp only
    by_cases first : i = 0
    · rw [first, Function.update_self, if_pos Nat.one_pos, coeff_C_zero]
    · rw [Function.update_of_ne first, if_neg (by omega)]
  | succ below ih =>
    have children : lev + 1 + below = L := by omega
    obtain ⟨here, slot⟩ := isTree.frame level
    have double : 2 ^ (below + 1) = 2 * 2 ^ below := by ring
    have twice : 2 ^ (lev + 1) = 2 * 2 ^ lev := by ring
    have half : (2 * 2 ^ below) >>> 1 = 2 ^ below := by
      rw [Nat.shiftRight_one, Nat.mul_div_cancel_left _ Nat.two_pos]
    have start : node_idx * 2 ^ (below + 1) = 2 * node_idx * 2 ^ below := by ring
    have middle : 2 * node_idx * 2 ^ below + 2 ^ below = (2 * node_idx + 1) * 2 ^ below := by ring
    have pos := Nat.two_pow_pos below
    have whole := Nat.two_pow_pos L
    have split := nodeCombination_succ points z below node_idx
    have left : 2 * node_idx < 2 ^ (lev + 1) := by omega
    have right : 2 * node_idx + 1 < 2 ^ (lev + 1) := by omega
    rw [double] at room
    rw [gf64_mpi_recurse_deriv]
    simp only [here, slot, half, start, middle]
    obtain ⟨first, leftRun, leftKept⟩ := ih children left
      (view words place) words (place + 4 * (2 * 2 ^ below)) (by omega)
    rw [leftRun]
    simp only [Option.bind_eq_bind, Option.bind_some]
    obtain ⟨second, leftPut, leftWords, leftOthers⟩ := putWords_put first (fun i =>
      if i < 2 ^ below then (nodeCombination points z below (2 * node_idx)).coeff i
      else view words place i) (by omega : place + 2 ^ below ≤ 8 * 2 ^ L)
    rw [leftPut]
    simp only [Option.bind_some]
    obtain ⟨third, rightRun, rightKept⟩ := ih children right
      (view second (place + 2 * 2 ^ below)) second (place + 4 * (2 * 2 ^ below)) (by omega)
    rw [rightRun]
    simp only [Option.bind_some]
    obtain ⟨fourth, rightPut, rightWords, rightOthers⟩ := putWords_put third (fun i =>
      if i < 2 ^ below then (nodeCombination points z below (2 * node_idx + 1)).coeff i
      else view second (place + 2 * 2 ^ below) i)
      (by omega : place + 2 * 2 ^ below + 2 ^ below ≤ 8 * 2 ^ L)
    rw [rightPut]
    simp only [Option.bind_some]
    -- the left result has outlasted the right subtree
    have leftThere : firstTerms (view fourth place) (2 ^ below) =
        nodeCombination points z below (2 * node_idx) :=
      firstTerms_eq (fun k inside => by
        rw [view, rightOthers _ (by omega), rightKept _ (by omega), leftWords k inside,
          if_pos inside]) fun k beyond => nodeCombination_beyond points z below _ beyond
    rw [mulPaddedInto_eq _ _ _ _ _ _ _ (by omega), leftThere, isTree.child_firstTerms children right]
    simp only [Option.bind_some]
    obtain ⟨fifth, firstPut, firstWords, firstOthers⟩ := putWords_put fourth (fun i =>
      if i < 2 * 2 ^ below then (nodePolynomial points below (2 * node_idx + 1) *
        nodeCombination points z below (2 * node_idx)).coeff i
      else view fourth (place + 2 * (2 * 2 ^ below)) i)
      (by omega : place + 2 * (2 * 2 ^ below) + 2 * 2 ^ below ≤ 8 * 2 ^ L)
    rw [firstPut]
    simp only [Option.bind_some]
    have rightThere : firstTerms (view fifth (place + 2 * 2 ^ below)) (2 ^ below) =
        nodeCombination points z below (2 * node_idx + 1) :=
      firstTerms_eq (fun k inside => by
        rw [view, firstOthers _ (by omega), rightWords k inside, if_pos inside])
        fun k beyond => nodeCombination_beyond points z below _ beyond
    rw [mulPaddedInto_eq _ _ _ _ _ _ _ (by omega), rightThere, isTree.child_firstTerms children left]
    simp only [Option.bind_some]
    obtain ⟨sixth, secondPut, secondWords, secondOthers⟩ := putWords_put fifth (fun i =>
      if i < 2 * 2 ^ below then (nodePolynomial points below (2 * node_idx) *
        nodeCombination points z below (2 * node_idx + 1)).coeff i
      else view fifth (place + 3 * (2 * 2 ^ below)) i)
      (by omega : place + 3 * (2 * 2 ^ below) + 2 * 2 ^ below ≤ 8 * 2 ^ L)
    rw [secondPut]
    simp only [Option.bind_some]
    refine ⟨sixth, congrArg some (Prod.ext (funext fun i => ?_) rfl), fun j inside => ?_⟩
    · dsimp only
      rw [double, split, coeff_add]
      by_cases within : i < 2 * 2 ^ below
      · rw [if_pos within, if_pos within, secondWords i within, if_pos within,
          secondOthers _ (by omega), firstWords i within, if_pos within]
      · rw [if_neg within, if_neg within]
    · rw [secondOthers j (by omega), firstOthers j (by omega), rightOthers j (by omega),
        rightKept j (by omega), leftOthers j (by omega), leftKept j (by omega)]

theorem nodeCombination_root (points z : ℕ → Gf64) (L : ℕ) :
    nodeCombination points z L 0 = combination (Finset.range (2 ^ L)) points z := by
  rw [nodeCombination, Nat.zero_mul, Nat.zero_add, Nat.one_mul, Finset.range_eq_Ico]

/-- Multiplied values are combined. -/
theorem interp_none_eq (kernels : Kernels) (isTree : IsTree tree points L)
    (memory : 8 * 2 ^ L ≤ SIZE_MAX / 8) (z out : ℕ → Gf64) :
    gf64_multi_point_interp_weights kernels tree z none out = some fun i =>
      if i < 2 ^ L then (combination (Finset.range (2 ^ L)) points z).coeff i else out i := by
  have pos := Nat.two_pow_pos L
  rw [gf64_multi_point_interp_weights]
  dsimp only
  rw [isTree.num_points, if_neg pos.ne', isTree.num_levels, Nat.add_sub_cancel,
    ← nodeCombination_root]
  split
  case isTrue one =>
    obtain rfl : L = 0 := by
      by_contra more
      exact absurd one (Nat.one_lt_two_pow more).ne'
    rw [nodeCombination_zero]
    refine congrArg some (funext fun i => ?_)
    by_cases first : i = 0
    · rw [first, Function.update_self, if_pos pos, coeff_C_zero]
    · rw [Function.update_of_ne first, if_neg (by omega)]
  case isFalse =>
    obtain ⟨last, run, -⟩ := recurse_combines kernels isTree memory z (Nat.zero_add L)
      (Nat.two_pow_pos 0) out (fun _ => 0) 0 (by omega)
    rw [Nat.zero_mul] at run
    rw [run]
    rfl

/-- Weights are multiplied with the values first. -/
theorem interp_some_eq (kernels : Kernels) (isTree : IsTree tree points L)
    (memory : 8 * 2 ^ L ≤ SIZE_MAX / 8) (values weights out : ℕ → Gf64) :
    gf64_multi_point_interp_weights kernels tree values (some weights) out = some fun i =>
      if i < 2 ^ L then
        (combination (Finset.range (2 ^ L)) points fun j => values j * weights j).coeff i
      else out i := by
  have same : combination (Finset.range (2 ^ L)) points (fun j => values j * weights j) =
      combination (Finset.range (2 ^ L)) points
        (fun j => if j < 2 ^ L then values j * weights j else 0) :=
    combination_congr points fun j member => (if_pos (Finset.mem_range.mp member)).symm
  have multiplied := interp_none_eq kernels isTree memory
    (fun j => if j < 2 ^ L then values j * weights j else 0) out
  rw [same, ← multiplied, gf64_multi_point_interp_weights, gf64_multi_point_interp_weights,
    isTree.num_points]
  dsimp only
  rw [if_pos (Nat.two_pow_pos L)]

/-- The interpolation polynomial is returned. -/
theorem interp_internal_eq (kernels : Kernels) (isTree : IsTree tree points L)
    (memory : 8 * 2 ^ L ≤ SIZE_MAX / 8) (distinct : Set.InjOn points (Finset.range (2 ^ L)))
    (values out : ℕ → Gf64) :
    gf64_multi_point_interp_internal kernels tree values out = some fun i =>
      if i < 2 ^ L then (Lagrange.interpolate (Finset.range (2 ^ L)) points values).coeff i
      else out i := by
  have pos := Nat.two_pow_pos L
  rw [gf64_multi_point_interp_internal]
  dsimp only
  rw [isTree.num_points, if_neg pos.ne']
  split
  case isTrue one =>
    obtain rfl : L = 0 := by
      by_contra more
      exact absurd one (Nat.one_lt_two_pow more).ne'
    rw [pow_zero, Finset.range_one, Lagrange.interpolate_singleton]
    refine congrArg some (funext fun i => ?_)
    by_cases first : i = 0
    · rw [first, Function.update_self, if_pos Nat.one_pos, coeff_C_zero]
    · rw [Function.update_of_ne first, if_neg (by omega)]
  case isFalse =>
    rw [gf64_multi_point_eval_value kernels isTree memory,
      firstTerms_derivative (nodePolynomial_degree points L 0).le fun k inside => ?odd]
    case odd =>
      rw [if_pos inside, Nat.and_one_is_mod, isTree.root (by omega)]
      exact if_congr (by omega) rfl rfl
    simp only [Option.bind_eq_bind, Option.bind_some]
    have nonzero {j : ℕ} (inside : j < 2 ^ L) :
        (derivative (nodePolynomial points L 0)).eval (points j) ≠ 0 := by
      have weight := Lagrange.nodalWeight_ne_zero distinct (Finset.mem_range.mpr inside)
      rw [Lagrange.nodalWeight_eq_eval_derivative_nodal (Finset.mem_range.mpr inside)] at weight
      rw [root_eq]
      exact fun zero => weight (by rw [zero, inv_zero])
    rw [FallibleLoops.foldlM_some fun z j => Function.update z j
      (values j * ((derivative (nodePolynomial points L 0)).eval (points j))⁻¹)]
    · simp only [Option.bind_some]
      rw [FallibleLoops.foldl_update_range fun j _ =>
        values j * ((derivative (nodePolynomial points L 0)).eval (points j))⁻¹,
        interp_none_eq kernels isTree memory, ← combination_eq_interpolate, ← root_eq]
      refine congrArg some (funext fun i => if_congr Iff.rfl (congrArg (coeff · i) ?_) rfl)
      exact combination_congr points fun j member => if_pos (Finset.mem_range.mp member)
    · intro j member z
      have inside := List.mem_range.mp member
      rw [if_pos inside, if_neg (nonzero inside)]

end Combine

/-- For every list of distinct points and all values, the polynomial that is returned is the only one
of a smaller degree with these values. Evaluating it gives them back, and interpolating the values of
a polynomial gives it back. The weights that are computed once lead to the same coefficients. -/
theorem interpolation_inverts_evaluation (kernels : Kernels) (inverses : InverseKernels)
    (points : ℕ → Gf64) (L : ℕ) (memory : (L + 1) * 2 ^ L + (2 ^ (L + 1) - 1) ≤ SIZE_MAX / 8)
    (distinct : Set.InjOn points (Finset.range (2 ^ L))) :
    ∃ tree, gf64_subproduct_tree_build kernels points (2 ^ L) = some tree ∧
      (∀ values out, ∃ coefficients,
        gf64_multi_point_interp_internal kernels tree values out = some coefficients ∧
        (∀ p : Gf64[X], p.degree < (2 ^ L : ℕ) →
          ((∀ j < 2 ^ L, p.eval (points j) = values j) ↔ p = firstTerms coefficients (2 ^ L))) ∧
        (∀ space, ∃ back,
          gf64_multi_point_eval kernels coefficients (2 ^ L - 1) tree space = some back ∧
          ∀ j < 2 ^ L, back j = values j) ∧
        ∀ weights_out, ∃ weights,
          gf64_barycentric_weights kernels inverses tree weights_out = some weights ∧
          gf64_multi_point_interp_weights kernels tree values (some weights) out =
            some coefficients) ∧
      ∀ f deg_f, deg_f < 2 ^ L → ∀ space out, ∃ values coefficients,
        gf64_multi_point_eval kernels f deg_f tree space = some values ∧
        gf64_multi_point_interp_internal kernels tree values out = some coefficients ∧
        firstTerms coefficients (2 ^ L) = firstTerms f (deg_f + 1) := by
  obtain ⟨tree, built, isTree⟩ := gf64_subproduct_tree_build_eq kernels points L memory
  have room := scratch_fits memory
  have small (values : ℕ → Gf64) :
      (Lagrange.interpolate (Finset.range (2 ^ L)) points values).degree < (2 ^ L : ℕ) := by
    have degree := Lagrange.degree_interpolate_lt values distinct
    rwa [Finset.card_range] at degree
  have coefficients (values out : ℕ → Gf64) : firstTerms (fun i => if i < 2 ^ L then
      (Lagrange.interpolate (Finset.range (2 ^ L)) points values).coeff i else out i) (2 ^ L) =
        Lagrange.interpolate (Finset.range (2 ^ L)) points values :=
    firstTerms_eq (fun k inside => if_pos inside) fun k beyond =>
      coeff_eq_zero_of_degree_lt ((small values).trans_le (Nat.cast_le.mpr beyond))
  have unique {p : Gf64[X]} (degree : p.degree < (2 ^ L : ℕ)) (values : ℕ → Gf64)
      (same : ∀ j < 2 ^ L, p.eval (points j) = values j) :
      p = Lagrange.interpolate (Finset.range (2 ^ L)) points values :=
    Lagrange.eq_interpolate_of_eval_eq values distinct (by rwa [Finset.card_range]) fun j member =>
      same j (Finset.mem_range.mp member)
  have value (values : ℕ → Gf64) {j : ℕ} (inside : j < 2 ^ L) :
      (Lagrange.interpolate (Finset.range (2 ^ L)) points values).eval (points j) = values j :=
    Lagrange.eval_interpolate_at_node values distinct (Finset.mem_range.mpr inside)
  refine ⟨tree, built, fun values out => ⟨_, interp_internal_eq kernels isTree room distinct values out,
    fun p degree => ?_, fun space => ?_, fun weights_out => ?_⟩, fun f deg_f degree space out => ?_⟩
  · rw [coefficients]
    refine ⟨unique degree values, ?_⟩
    rintro rfl j inside
    exact value values inside
  · refine ⟨_, gf64_multi_point_eval_value kernels isTree room _ space, fun j inside => ?_⟩
    rw [if_pos inside, coefficients]
    exact value values inside
  · refine ⟨_, gf64_barycentric_weights_eq kernels inverses isTree room weights_out, ?_⟩
    rw [interp_some_eq kernels isTree room, ← combination_eq_interpolate, ← root_eq]
    refine congrArg some (funext fun i => if_congr Iff.rfl (congrArg (coeff · i) ?_) rfl)
    exact combination_congr points fun j member => by rw [if_pos (Finset.mem_range.mp member)]
  · refine ⟨_, _, gf64_multi_point_eval_eq kernels isTree room f deg_f space,
      interp_internal_eq kernels isTree room distinct _ out, ?_⟩
    rw [coefficients]
    have below : (firstTerms f (deg_f + 1)).degree < (2 ^ L : ℕ) :=
      (firstTerms_degree_lt f (deg_f + 1)).trans_le (Nat.cast_le.mpr degree)
    have addresses : SIZE_MAX / 8 < SIZE_MAX := by decide
    refine (unique below _ fun j inside => ?_).symm
    rw [if_pos inside, horner_eval_poly_eq f (by omega)]

/-- Four points, and the values of the line through zero. -/
theorem interpolation_inverts_evaluation_four : ∃ tree coefficients,
    gf64_subproduct_tree_build ⟨false, true⟩ gf64OfNat (2 ^ 2) = some tree ∧
      gf64_multi_point_interp_internal ⟨false, true⟩ tree gf64OfNat (fun _ => 0) = some coefficients ∧
      X = firstTerms coefficients (2 ^ 2) := by
  have distinct : Set.InjOn gf64OfNat (Finset.range (2 ^ 2)) := by
    intro first one second two same
    have small : first < 4 := Finset.mem_range.mp one
    have other : second < 4 := Finset.mem_range.mp two
    exact gf64OfNat_injective (by omega) (by omega) same
  obtain ⟨tree, built, interpolates, -⟩ := interpolation_inverts_evaluation ⟨false, true⟩
    ⟨true, .scalar⟩ gf64OfNat 2 (by decide) distinct
  obtain ⟨coefficients, returned, only, -⟩ := interpolates gf64OfNat fun _ => 0
  refine ⟨tree, coefficients, built, returned, (only X ?_).mp fun j _ => eval_X⟩
  exact degree_X_le.trans_lt (by norm_num)

end Par3
