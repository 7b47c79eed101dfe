import Par3.DivmodContract
import Par3.FrobeniusFft
import Par3.Foundations.ProductTree

/-!
# The tree of products

The tree over a list of points: the leaves are the lines through them, a node is the product of its
children, and every level is stored behind the level above it. What a node holds is proved from the
leaves upwards.
-/

namespace Par3

open Polynomial ProductTree

/-! ## Building -/

/-- The levels are found in the storage by their offsets. -/
structure SubproductTree where
  level_offset : ℕ → ℕ
  level_lens : ℕ → ℕ
  level_degs : ℕ → ℕ
  num_levels : ℕ
  num_points : ℕ
  storage : ℕ → Gf64

/-- `tree->level_data[lev] + position` -/
def SubproductTree.level_data (tree : SubproductTree) (lev position : ℕ) : ℕ → Gf64 :=
  fun i => tree.storage (tree.level_offset lev + position + i)

def gf64_is_power_of_two (n : ℕ) : Bool := n ≠ 0 ∧ n &&& (n - 1) = 0

/-- The words of the levels before one. -/
def coefficientsBefore (level_lens level_degs : ℕ → ℕ) (lev : ℕ) : ℕ :=
  ((List.range lev).map fun lev => level_lens lev * (level_degs lev + 1)).sum

/-- A product of two polynomials in the storage, written into it. -/
def multiplyAt (kernels : Kernels) (storage : ℕ → Gf64) (parent left right child_deg : ℕ) :
    Option (ℕ → Gf64) :=
  (mulInto kernels (fun i => storage (parent + i)) (fun i => storage (left + i)) child_deg
    (fun i => storage (right + i)) child_deg).map fun out i =>
      if i < parent then storage i else out (i - parent)

/-- The products of one level from those of the level below. -/
def multiplyLevel (kernels : Kernels) (level_offset level_lens level_degs : ℕ → ℕ)
    (storage : ℕ → Gf64) (child_lev : ℕ) : Option (ℕ → Gf64) :=
  let parent_lev := child_lev - 1
  let child_deg := level_degs child_lev
  let parent_deg := level_degs parent_lev
  let parent_count := level_lens parent_lev
  let parent_base := level_offset parent_lev
  let child_base := level_offset child_lev
  (List.range parent_count).foldlM (fun storage i =>
    multiplyAt kernels storage (parent_base + i * (parent_deg + 1))
      (child_base + 2 * i * (child_deg + 1)) (child_base + (2 * i + 1) * (child_deg + 1)) child_deg)
    storage

/-- The tree, or the end of the program when it does not fit in memory. -/
def gf64_subproduct_tree_build (kernels : Kernels) (points : ℕ → Gf64) (N : ℕ) :
    Option SubproductTree :=
  let out : SubproductTree :=
    { level_offset := fun _ => 0
      level_lens := fun _ => 0
      level_degs := fun _ => 0
      num_levels := 0
      num_points := N
      storage := fun _ => 0 }
  if N = 0 then some out
  else if N > 1 ∧ ¬ gf64_is_power_of_two N then some out
  else
    let num_levels := gf64_log2_size N + 1
    let level_lens := fun lev => if lev < num_levels then 1 <<< lev else 0
    let level_degs := fun lev => if lev < num_levels then N >>> lev else 0
    let total_coeffs := coefficientsBefore level_lens level_degs num_levels
    if total_coeffs > SIZE_MAX / 8 then none
    else do
      let level_offset := coefficientsBefore level_lens level_degs
      let last_lev := num_levels - 1
      let leaves := level_offset last_lev
      let storage := FallibleLoops.writePairs (fun i => leaves + 2 * i) (fun i => leaves + (2 * i + 1))
        points (fun _ => 1) N fun _ => 0
      -- from the leaves to the level below the root
      let storage ← (List.range' 1 last_lev).reverse.foldlM
        (multiplyLevel kernels level_offset level_lens level_degs) storage
      some
        { level_offset := level_offset
          level_lens := level_lens
          level_degs := level_degs
          num_levels := num_levels
          num_points := N
          storage := storage }

/-! ## The layout -/

section Layout

variable (L : ℕ)

def treeLens (lev : ℕ) : ℕ := if lev < L + 1 then 1 <<< lev else 0

def treeDegs (lev : ℕ) : ℕ := if lev < L + 1 then 2 ^ L >>> lev else 0

def treeOffset : ℕ → ℕ := coefficientsBefore (treeLens L) (treeDegs L)

variable {L} {lev below : ℕ}

theorem treeLens_eq (level : lev + below = L) : treeLens L lev = 2 ^ lev := by
  rw [treeLens, if_pos (by omega), Nat.one_shiftLeft]

theorem treeDegs_eq (level : lev + below = L) : treeDegs L lev = 2 ^ below := by
  rw [treeDegs, if_pos (by omega), Nat.shiftRight_eq_div_pow, ← level, pow_add,
    Nat.mul_div_cancel_left _ (Nat.two_pow_pos lev)]

theorem treeOffset_succ (level : lev + below = L) :
    treeOffset L (lev + 1) = treeOffset L lev + 2 ^ lev * (2 ^ below + 1) := by
  rw [treeOffset, coefficientsBefore, List.range_succ, List.map_append, List.sum_append,
    List.map_singleton, List.sum_singleton, treeLens_eq level, treeDegs_eq level]
  rfl

theorem treeOffset_le {other : ℕ} (le : lev ≤ other) : treeOffset L lev ≤ treeOffset L other := by
  obtain ⟨more, rfl⟩ := Nat.exists_eq_add_of_le le
  rw [treeOffset, coefficientsBefore, coefficientsBefore, List.range_add, List.map_append,
    List.sum_append]
  exact Nat.le_add_right _ _

/-- All words of a tree over `2 ^ L` points. -/
theorem treeOffset_total (L : ℕ) : treeOffset L (L + 1) = (L + 1) * 2 ^ L + (2 ^ (L + 1) - 1) := by
  have before (lev : ℕ) (inside : lev ≤ L + 1) :
      treeOffset L lev = lev * 2 ^ L + (2 ^ lev - 1) := by
    induction lev with
    | zero => rw [Nat.zero_mul]; rfl
    | succ lev ih =>
      obtain ⟨below, level⟩ := Nat.exists_eq_add_of_le (Nat.le_of_succ_le_succ inside)
      have known := ih (by omega)
      have pos := Nat.two_pow_pos lev
      have double : 2 ^ (lev + 1) = 2 ^ lev + 2 ^ lev := by ring
      rw [treeOffset_succ level.symm, known, Nat.mul_succ, ← pow_add, ← level, Nat.succ_mul, double]
      omega
  exact before (L + 1) le_rfl

theorem gf64_is_power_of_two_pow (L : ℕ) : gf64_is_power_of_two (2 ^ L) = true := by
  rw [gf64_is_power_of_two, decide_eq_true_iff]
  refine ⟨(Nat.two_pow_pos L).ne', ?_⟩
  rw [Nat.and_two_pow_sub_one_eq_mod, Nat.mod_self]

end Layout

/-! ## The nodes -/

section Nodes

variable {points storage : ℕ → Gf64} {L lev below : ℕ}

/-- The monic product over the leaves below a node. -/
noncomputable def nodePolynomial (points : ℕ → Gf64) (below i : ℕ) : Gf64[X] :=
  Lagrange.nodal (Finset.Ico (i * 2 ^ below) ((i + 1) * 2 ^ below)) points

/-- The two children make the node. -/
theorem nodePolynomial_succ (points : ℕ → Gf64) (below i : ℕ) :
    nodePolynomial points (below + 1) i =
      nodePolynomial points below (2 * i) * nodePolynomial points below (2 * i + 1) := by
  have start : i * 2 ^ (below + 1) = 2 * i * 2 ^ below := by ring
  have stop : (i + 1) * 2 ^ (below + 1) = (2 * i + 1 + 1) * 2 ^ below := by ring
  rw [nodePolynomial, start, stop]
  exact nodal_append points (Nat.mul_le_mul_right _ (Nat.le_succ _))
    (Nat.mul_le_mul_right _ (Nat.le_succ _))

theorem nodePolynomial_degree (points : ℕ → Gf64) (below i : ℕ) :
    (nodePolynomial points below i).natDegree = 2 ^ below := by
  rw [nodePolynomial, Lagrange.natDegree_nodal, Nat.card_Ico, ← Nat.sub_mul, Nat.add_sub_cancel_left,
    Nat.one_mul]

theorem nodePolynomial_monic (points : ℕ → Gf64) (below i : ℕ) :
    (nodePolynomial points below i).Monic := Lagrange.nodal_monic

theorem nodePolynomial_zero (points : ℕ → Gf64) (i : ℕ) :
    nodePolynomial points 0 i = X + C (points i) := by
  rw [nodePolynomial, pow_zero, Nat.mul_one, Nat.mul_one, Nat.Ico_succ_singleton, Lagrange.nodal,
    Finset.prod_singleton, CharTwo.sub_eq_add]

/-- The words from a place on are the coefficients of a node. -/
def Holds (storage : ℕ → Gf64) (points : ℕ → Gf64) (below place i : ℕ) : Prop :=
  ∀ k ≤ 2 ^ below, storage (place + k) = (nodePolynomial points below i).coeff k

theorem Holds.firstTerms {place i : ℕ} (holds : Holds storage points below place i) :
    firstTerms (fun k => storage (place + k)) (2 ^ below + 1) = nodePolynomial points below i :=
  firstTerms_eq (fun k inside => holds k (Nat.lt_succ_iff.mp inside)) fun k beyond =>
    coeff_eq_zero_of_natDegree_lt (by rw [nodePolynomial_degree]; omega)

theorem Holds.congr {place i : ℕ} (holds : Holds storage points below place i)
    {other : ℕ → Gf64} (same : ∀ k, other (place + k) = storage (place + k)) :
    Holds other points below place i := fun k inside => (same k).trans (holds k inside)

/-- One level holds its nodes. -/
def LevelHolds (storage : ℕ → Gf64) (points : ℕ → Gf64) (L lev below : ℕ) : Prop :=
  ∀ i < 2 ^ lev, Holds storage points below (treeOffset L lev + i * (2 ^ below + 1)) i

/-- One product of children. -/
theorem multiplyAt_holds (kernels : Kernels) (parent : ℕ) {left right i : ℕ}
    (fits : 2 ^ (below + 1) + 1 ≤ SIZE_MAX)
    (first : Holds storage points below left (2 * i))
    (second : Holds storage points below right (2 * i + 1)) :
    ∃ next, multiplyAt kernels storage parent left right (2 ^ below) = some next ∧
      Holds next points (below + 1) parent i ∧
      ∀ j, j < parent ∨ parent + (2 ^ (below + 1) + 1) ≤ j → next j = storage j := by
  have double : 2 ^ below + 2 ^ below = 2 ^ (below + 1) := by ring
  rw [multiplyAt, mulInto_eq _ _ _ _ _ _ (by omega), first.firstTerms, second.firstTerms,
    ← nodePolynomial_succ, double]
  refine ⟨_, rfl, fun k inside => ?_, fun j outside => ?_⟩
  · dsimp only
    rw [if_neg (by omega), Nat.add_sub_cancel_left, if_pos inside]
  · dsimp only
    split
    case isTrue => rfl
    case isFalse above => rw [if_neg (by omega), Nat.add_sub_cancel' (not_lt.mp above)]

/-- The products of one level. -/
theorem multiplyLevel_holds (kernels : Kernels) (level : lev + 1 + below = L)
    (fits : 2 ^ (below + 1) + 1 ≤ SIZE_MAX)
    (children : LevelHolds storage points L (lev + 1) below) :
    ∃ next, multiplyLevel kernels (treeOffset L) (treeLens L) (treeDegs L) storage (lev + 1) =
        some next ∧
      LevelHolds next points L lev (below + 1) ∧
      ∀ j ≥ treeOffset L (lev + 1), next j = storage j := by
  have parents : lev + (below + 1) = L := by omega
  have after := treeOffset_succ parents
  rw [multiplyLevel]
  rw [Nat.add_sub_cancel, treeDegs_eq level, treeDegs_eq parents, treeLens_eq parents]
  have loop (count : ℕ) (some : count ≤ 2 ^ lev) : ∃ next,
      (List.range count).foldlM (fun storage i =>
        multiplyAt kernels storage (treeOffset L lev + i * (2 ^ (below + 1) + 1))
          (treeOffset L (lev + 1) + 2 * i * (2 ^ below + 1))
          (treeOffset L (lev + 1) + (2 * i + 1) * (2 ^ below + 1)) (2 ^ below)) storage =
            Option.some next ∧
      (∀ i < count, Holds next points (below + 1)
        (treeOffset L lev + i * (2 ^ (below + 1) + 1)) i) ∧
      ∀ j ≥ treeOffset L lev + count * (2 ^ (below + 1) + 1), next j = storage j := by
    induction count with
    | zero => exact ⟨storage, rfl, fun i none => by omega, fun j _ => rfl⟩
    | succ count ih =>
      obtain ⟨now, run, done, kept⟩ := ih (by omega)
      have room : treeOffset L lev + count * (2 ^ (below + 1) + 1) ≤ treeOffset L (lev + 1) := by
        rw [after]
        exact Nat.add_le_add_left (Nat.mul_le_mul_right _ (by omega)) _
      have double : 2 ^ (lev + 1) = 2 * 2 ^ lev := by ring
      have child (i : ℕ) (inside : i < 2 ^ (lev + 1)) : Holds now points below
          (treeOffset L (lev + 1) + i * (2 ^ below + 1)) i :=
        (children i inside).congr fun k => kept _ (by omega)
      obtain ⟨next, product, made, others⟩ := multiplyAt_holds kernels
        (treeOffset L lev + count * (2 ^ (below + 1) + 1)) fits
        (child (2 * count) (by omega)) (child (2 * count + 1) (by omega))
      refine ⟨next, ?_, fun i inside => ?_, fun j outside => ?_⟩
      · rw [List.range_succ, List.foldlM_append, run]
        simp only [List.foldlM_cons, List.foldlM_nil, Option.bind_eq_bind, Option.bind_some, product]
        rfl
      · by_cases last : i = count
        · rw [last]
          exact made
        · refine fun k within => ?_
          have before : (i + 1) * (2 ^ (below + 1) + 1) ≤ count * (2 ^ (below + 1) + 1) :=
            Nat.mul_le_mul_right _ (by omega)
          rw [Nat.succ_mul] at before
          rw [others _ (Or.inl (by omega))]
          exact done i (by omega) k within
      · have pos := Nat.two_pow_pos below
        rw [Nat.succ_mul] at outside
        rw [others j (Or.inr (by omega)), kept j (by omega)]
  obtain ⟨next, run, done, kept⟩ := loop (2 ^ lev) le_rfl
  exact ⟨next, run, done, fun j outside => kept j (by omega)⟩

/-- All levels from one that holds its nodes. -/
theorem multiplyLevels_hold (kernels : Kernels) (count below : ℕ) (level : count + below = L)
    (fits : 2 ^ L + 1 ≤ SIZE_MAX) (leaves : LevelHolds storage points L count below) :
    ∃ last, (List.range' 1 count).reverse.foldlM
        (multiplyLevel kernels (treeOffset L) (treeLens L) (treeDegs L)) storage = some last ∧
      (∀ lev ≤ count, ∀ deep, lev + deep = L → LevelHolds last points L lev deep) ∧
      ∀ j ≥ treeOffset L count, last j = storage j := by
  induction count generalizing storage below with
  | zero =>
    refine ⟨storage, rfl, fun lev le deep own => ?_, fun _ _ => rfl⟩
    obtain rfl : lev = 0 := by omega
    obtain rfl : deep = below := by omega
    exact leaves
  | succ count ih =>
    have smaller : 2 ^ (below + 1) ≤ 2 ^ L := Nat.pow_le_pow_right Nat.two_pos (by omega)
    obtain ⟨next, product, made, others⟩ := multiplyLevel_holds kernels level
      (by omega) leaves
    obtain ⟨last, run, done, kept⟩ := ih (below + 1) (by omega) made
    have step : treeOffset L count ≤ treeOffset L (count + 1) := treeOffset_le (Nat.le_succ count)
    refine ⟨last, ?_, fun lev le deep own => ?_, fun j outside => ?_⟩
    · rw [List.range'_concat, List.reverse_append, List.reverse_singleton, List.singleton_append,
        List.foldlM_cons, Nat.one_mul, Nat.add_comm 1, product]
      exact run
    · by_cases bottom : lev = count + 1
      · subst bottom
        obtain rfl : deep = below := by omega
        intro i inside
        refine (leaves i inside).congr fun k => ?_
        rw [kept _ (by omega), others _ (by omega)]
      · exact done lev (by omega) deep own
    · rw [kept j (by omega), others j outside]

/-- The lines at the leaves. -/
theorem leaves_hold (points : ℕ → Gf64) (L : ℕ) :
    LevelHolds (FallibleLoops.writePairs (fun i => treeOffset L L + 2 * i)
      (fun i => treeOffset L L + (2 * i + 1)) points (fun _ => 1) (2 ^ L) fun _ => 0) points L L 0 := by
  intro i inside k within
  have injective (shift : ℕ) : Function.Injective fun i => treeOffset L L + (2 * i + shift) :=
    fun first second same => by dsimp only at same; omega
  rw [nodePolynomial_zero, pow_zero]
  rw [pow_zero] at within
  obtain rfl | rfl : k = 0 ∨ k = 1 := by omega
  · refine Eq.trans (congrArg _ ?_) ((FallibleLoops.writePairs_low (injective 0)
      (fun first _ second _ => by omega) inside).trans ?_)
    · omega
    · rw [coeff_add, coeff_X_zero, coeff_C_zero, zero_add]
  · refine Eq.trans (congrArg _ ?_) ((FallibleLoops.writePairs_high (injective 1)
      (fun first _ second _ => by omega) inside).trans ?_)
    · omega
    · rw [coeff_add, coeff_X_one, coeff_C_succ, add_zero]

/-- What readers of a tree rely on. -/
structure IsTree (tree : SubproductTree) (points : ℕ → Gf64) (L : ℕ) : Prop where
  num_points : tree.num_points = 2 ^ L
  num_levels : tree.num_levels = L + 1
  level_lens : ∀ {lev below}, lev + below = L → tree.level_lens lev = 2 ^ lev
  level_degs : ∀ {lev below}, lev + below = L → tree.level_degs lev = 2 ^ below
  nodes : ∀ {lev below}, lev + below = L → ∀ i < 2 ^ lev, ∀ k ≤ 2 ^ below,
    tree.level_data lev (i * (2 ^ below + 1)) k = (nodePolynomial points below i).coeff k

/-- The level and the size of a node that has levels below it. -/
theorem IsTree.frame {tree : SubproductTree} {points : ℕ → Gf64} {L lev below : ℕ}
    (isTree : IsTree tree points L) (level : lev + (below + 1) = L) :
    tree.num_levels - 1 - (below + 1) = lev ∧ tree.num_points >>> lev = 2 * 2 ^ below := by
  have double : 2 ^ (below + 1) = 2 * 2 ^ below := by ring
  refine ⟨by rw [isTree.num_levels]; omega, ?_⟩
  rw [isTree.num_points, Nat.shiftRight_eq_div_pow, ← level, pow_add,
    Nat.mul_div_cancel_left _ (Nat.two_pow_pos lev), double]

/-- The tree over any points is built, if its words fit in memory. -/
theorem gf64_subproduct_tree_build_eq (kernels : Kernels) (points : ℕ → Gf64) (L : ℕ)
    (memory : (L + 1) * 2 ^ L + (2 ^ (L + 1) - 1) ≤ SIZE_MAX / 8) :
    ∃ tree, gf64_subproduct_tree_build kernels points (2 ^ L) = some tree ∧
      IsTree tree points L := by
  have fits : 2 ^ L + 1 ≤ SIZE_MAX := by
    have one : 2 ^ L ≤ (L + 1) * 2 ^ L := Nat.le_mul_of_pos_left _ (Nat.succ_pos L)
    have bound : SIZE_MAX / 8 + 1 ≤ SIZE_MAX := by decide
    omega
  obtain ⟨last, run, done, -⟩ := multiplyLevels_hold kernels L 0 (Nat.add_zero L) fits
    (leaves_hold points L)
  have total := treeOffset_total L
  rw [treeOffset] at total run
  rw [gf64_subproduct_tree_build]
  dsimp only
  rw [if_neg (Nat.two_pow_pos L).ne', if_neg (by rw [gf64_is_power_of_two_pow]; simp),
    gf64_log2_size_pow]
  change ∃ tree, (if coefficientsBefore (treeLens L) (treeDegs L) (L + 1) > _ then _ else _) = _ ∧ _
  rw [if_neg (by omega), Nat.add_sub_cancel]
  refine ⟨_, congrArg (Option.bind · _) run, rfl, rfl, treeLens_eq, treeDegs_eq,
    fun level i inside k within => ?_⟩
  exact done _ (by omega) _ level i inside k within

end Nodes

end Par3
