import Par3.MultiPointEval

/-!
# What arrives at the leaves

Every call of the walk has a polynomial that is congruent to the first one modulo the product of its
node, and the words that a call still needs are below those that the calls under it write. So the
walk returns the values at all points, and neither its scratch nor its arena is exhausted.
-/

namespace Par3

open Polynomial ProductTree

/-! ## Values and degrees -/

theorem horner_eval_poly_eq (c : ℕ → Gf64) {deg : ℕ} (degree : deg ≠ SIZE_MAX) (r : Gf64) :
    horner_eval_poly c deg r = (firstTerms c (deg + 1)).eval r := by
  have loop (count : ℕ) (acc : Gf64) :
      (List.range count).reverse.foldl (fun acc i => acc * r + c i) acc =
        acc * r ^ count + (firstTerms c count).eval r := by
    induction count generalizing acc with
    | zero => simp [firstTerms]
    | succ count ih =>
      rw [List.range_succ, List.reverse_append, List.reverse_singleton, List.singleton_append,
        List.foldl_cons, ih, firstTerms_succ, eval_add, eval_mul, eval_C, eval_pow,
        eval_X, pow_succ]
      ring
  rw [horner_eval_poly, if_neg degree, loop, firstTerms_succ, eval_add, eval_mul, eval_C, eval_pow,
    eval_X, add_comm]

theorem highestSet_lt (r : ℕ → Gf64) {count : ℕ} (pos : 0 < count) :
    highestSet r count < count := by
  induction count with
  | zero => exact absurd pos (lt_irrefl 0)
  | succ count ih =>
    rw [highestSet]
    split
    case isTrue => exact Nat.lt_succ_self count
    case isFalse =>
      rcases Nat.eq_zero_or_pos count with rfl | some
      · exact Nat.one_pos
      · exact Nat.lt_succ_of_lt (ih some)

theorem highestSet_above (r : ℕ → Gf64) {count k : ℕ} (inside : k < count)
    (above : highestSet r count < k) : r k = 0 := by
  induction count with
  | zero => exact absurd inside (Nat.not_lt_zero k)
  | succ count ih =>
    rw [highestSet] at above
    split at above
    case isTrue => omega
    case isFalse zero =>
      rcases Nat.lt_succ_iff_lt_or_eq.mp inside with earlier | rfl
      · exact ih earlier above
      · exact not_not.mp zero

/-- The degree that is found covers the remainder. -/
theorem remainderDegree_covers (r : ℕ → Gf64) (deg_f : ℕ) {child_deg : ℕ} (pos : 0 < child_deg)
    (short : ∀ k, deg_f < k → k < child_deg → r k = 0) :
    remainderDegree r child_deg deg_f < child_deg ∧
      firstTerms r (remainderDegree r child_deg deg_f + 1) = firstTerms r child_deg := by
  have found := highestSet_lt r pos
  rw [remainderDegree]
  split
  case isTrue capped =>
    refine ⟨capped.1, (firstTerms_more (by omega) fun k inside above => ?_).symm⟩
    exact short k (by omega) inside
  case isFalse =>
    refine ⟨found, (firstTerms_more (by omega) fun k inside above => ?_).symm⟩
    exact highestSet_above r inside (by omega)

/-! ## Divisions in the scratch -/

theorem putWords_eq {size place count : ℕ} (scratch words : ℕ → Gf64) (room : place + count ≤ size) :
    putWords size scratch place count words = some fun i =>
      if place ≤ i ∧ i < place + count then words (i - place) else scratch i := by
  rw [putWords, if_neg (by omega)]

/-- The words are in their place, and nothing else changes. -/
theorem putWords_put {size place count : ℕ} (scratch words : ℕ → Gf64) (room : place + count ≤ size) :
    ∃ next, putWords size scratch place count words = some next ∧
      (∀ k < count, next (place + k) = words k) ∧
      ∀ j, j < place ∨ place + count ≤ j → next j = scratch j := by
  refine ⟨_, putWords_eq scratch words room, fun k inside => ?_, fun j outside => ?_⟩
  · rw [if_pos (by omega), Nat.add_sub_cancel_left]
  · exact if_neg (by omega)

/-- A division leaves its remainder in its place, and nothing else changes but the quotient's. -/
theorem divideInto_remainder (kernels : Kernels) {size : ℕ} (scratch f : ℕ → Gf64) {g : ℕ → Gf64}
    {deg_f deg_g : ℕ} (q r slot : ℕ) {arena : Arena} (lead : g deg_g ≠ 0)
    (fits : deg_f + 1 ≤ SIZE_MAX / 3) (room : HasRoom (some arena) (divmodWords deg_f deg_g))
    (quotient : deg_f - deg_g + 1 ≤ slot) (dividend : deg_f + 1 ≤ slot) (remainder : deg_g ≤ slot)
    (apart : r + slot ≤ q) (inside : q + slot ≤ size) :
    ∃ next, divideInto kernels size scratch f deg_f g deg_g q r arena = some next ∧
      (∀ k < deg_g,
        next (r + k) = (firstTerms f (deg_f + 1) % firstTerms g (deg_g + 1)).coeff k) ∧
      ∀ j, (j < r ∨ r + slot ≤ j) → (j < q ∨ q + slot ≤ j) → next j = scratch j := by
  rw [divideInto, gf64_poly_divmod_scratch_eq kernels lead fits room]
  simp only [Option.bind_eq_bind, Option.bind_some]
  rw [putWords_eq _ _ (by omega)]
  simp only [Option.bind_some]
  rw [putWords_eq _ _ (by omega)]
  refine ⟨_, rfl, fun k below => ?_, fun j first second => ?_⟩
  · dsimp only [divided]
    rw [Nat.add_sub_cancel_left, if_pos (by omega), if_pos below]
  · rw [if_neg (by omega), if_neg (by omega)]

/-- The largest division of a frame. -/
theorem divmodWords_le {deg_f half : ℕ} (small : deg_f < 2 * half) :
    divmodWords deg_f half ≤ 16 * half := by
  rw [divmodWords]
  split
  · exact Nat.zero_le _
  · split
    · exact Nat.zero_le _
    · omega

/-! ## The walk -/

section Walk

variable {tree : SubproductTree} {points : ℕ → Gf64} {L : ℕ}

/-- The children of a node are divisors with a leading coefficient. -/
theorem IsTree.child_firstTerms (isTree : IsTree tree points L) {lev below i : ℕ}
    (level : lev + below = L) (inside : i < 2 ^ lev) :
    firstTerms (tree.level_data lev (i * (2 ^ below + 1))) (2 ^ below + 1) =
      nodePolynomial points below i :=
  firstTerms_eq (fun k within => isTree.nodes level i inside k (Nat.lt_succ_iff.mp within))
    fun k beyond => coeff_eq_zero_of_natDegree_lt (by rw [nodePolynomial_degree]; omega)

theorem IsTree.child_lead (isTree : IsTree tree points L) {lev below i : ℕ}
    (level : lev + below = L) (inside : i < 2 ^ lev) :
    tree.level_data lev (i * (2 ^ below + 1)) (2 ^ below) ≠ 0 := by
  rw [isTree.nodes level i inside _ le_rfl, ← nodePolynomial_degree points below i]
  rw [coeff_natDegree, nodePolynomial_monic points below i]
  exact one_ne_zero

/-- The constant words of the leaves are the points. -/
theorem IsTree.leaf (isTree : IsTree tree points L) {i : ℕ} (inside : i < 2 ^ L) :
    tree.level_data (tree.num_levels - 1) 0 (2 * i) = points i := by
  have node := isTree.nodes (Nat.add_zero L) i inside 0 (Nat.zero_le _)
  rw [nodePolynomial_zero, coeff_add, coeff_X_zero, coeff_C_zero, zero_add] at node
  rw [isTree.num_levels, Nat.add_sub_cancel, ← node, SubproductTree.level_data,
    SubproductTree.level_data]
  congr 1
  omega

/-- A polynomial that is congruent at a leaf has the value there. -/
theorem leaf_value {points : ℕ → Gf64} {node_idx : ℕ} {polynomial f : Gf64[X]}
    (congruent : nodePolynomial points 0 node_idx ∣ polynomial - f) :
    polynomial.eval (points node_idx) = f.eval (points node_idx) := by
  obtain ⟨rest, split⟩ := congruent
  have value := congrArg (eval (points node_idx)) split
  rw [nodePolynomial_zero, eval_mul, eval_add, eval_X, eval_C, CharTwo.add_self_eq_zero, zero_mul,
    eval_sub] at value
  exact sub_eq_zero.mp value

/-- A call whose polynomial is congruent to the first one modulo the product of its node. -/
def EvalCall.Congruent (call : EvalCall) (points : ℕ → Gf64) (L : ℕ) (polynomial : Gf64[X]) : Prop :=
  nodePolynomial points (L - call.lev) call.node_idx ∣
    polynomial - firstTerms call.f (call.deg_f + 1)

/-- The words of a call's polynomial are below a place. -/
def Operand.Before (deg_f place : ℕ) : Operand → Prop
  | .outside _ => True
  | .scratch own => own + (deg_f + 1) ≤ place

theorem Operand.read_congr {f : Operand} {deg_f place : ℕ} (before : f.Before deg_f place)
    {scratch other : ℕ → Gf64} (same : ∀ j < place, other j = scratch j) :
    firstTerms (f.read other) (deg_f + 1) = firstTerms (f.read scratch) (deg_f + 1) := by
  cases f with
  | outside f => rfl
  | scratch own =>
    have room : own + (deg_f + 1) ≤ place := before
    exact firstTerms_congr fun k inside => same (own + k) (by omega)

/-- What a walk below a node has done. -/
structure Walked (points : ℕ → Gf64) (L : ℕ) (polynomial : Gf64[X]) (below node_idx place : ℕ)
    (state last : EvalState) : Prop where
  scratch : ∀ j < place, last.scratch j = state.scratch j
  out : ∀ i, last.out i = if node_idx * 2 ^ below ≤ i ∧ i < (node_idx + 1) * 2 ^ below then
    polynomial.eval (points i) else state.out i
  calls : ∃ more, last.calls = state.calls ++ more ∧
    (∀ call ∈ more, call.Congruent points L polynomial) ∧
    ∀ deep up, deep + up = below → ∀ i, node_idx * 2 ^ deep ≤ i → i < (node_idx + 1) * 2 ^ deep →
      ∃ call ∈ more, call.lev = L - up ∧ call.node_idx = i

theorem walk_leaf (kernels : Kernels) (isTree : IsTree tree points L) {size : ℕ} {arena : Arena} {f : Operand}
    {deg_f node_idx place : ℕ} {state : EvalState} {polynomial : Gf64[X]} (node : node_idx < 2 ^ L)
    (degree : deg_f ≠ SIZE_MAX) (congruent : nodePolynomial points 0 node_idx ∣
      polynomial - firstTerms (f.read state.scratch) (deg_f + 1)) :
    ∃ last, gf64_mp_eval_recurse kernels tree size arena 0 f deg_f node_idx state place = some last ∧
      Walked points L polynomial 0 node_idx place state last := by
  have bottom : tree.num_levels - 1 = L := by rw [isTree.num_levels, Nat.add_sub_cancel]
  refine ⟨_, rfl, fun _ _ => rfl, fun i => ?_, ⟨_, rfl, ?_, ?_⟩⟩
  · dsimp only
    rw [isTree.leaf node, pow_zero, Nat.mul_one, Nat.mul_one]
    by_cases here : i = node_idx
    · rw [here, Function.update_self, if_pos ⟨le_rfl, Nat.lt_succ_self node_idx⟩,
        horner_eval_poly_eq _ degree]
      exact (leaf_value congruent).symm
    · rw [Function.update_of_ne here, if_neg (by omega)]
  · intro call member
    obtain rfl := List.mem_singleton.mp member
    rw [EvalCall.Congruent, bottom, Nat.sub_self]
    exact congruent
  · intro deep up sum i first last
    obtain rfl : deep = 0 := by omega
    obtain rfl : up = 0 := by omega
    rw [pow_zero, Nat.mul_one] at first last
    exact ⟨_, List.mem_singleton_self _, by rw [bottom, Nat.sub_zero], by dsimp only; omega⟩

/-- What two walks under a node have done together. -/
theorem Walked.node {polynomial : Gf64[X]} {below node_idx place child_place : ℕ}
    {state begun middle last : EvalState} {call : EvalCall}
    (left : Walked points L polynomial below (2 * node_idx) child_place begun middle) (le : place ≤ child_place)
    (scratch : ∀ j < place, begun.scratch j = state.scratch j) (out : begun.out = state.out)
    (calls : begun.calls = state.calls ++ [call]) (own : call.Congruent points L polynomial)
    (level : call.lev = L - (below + 1)) (index : call.node_idx = node_idx)
    (right : Walked points L polynomial below (2 * node_idx + 1) child_place middle last) :
    Walked points L polynomial (below + 1) node_idx place state last := by
  have double : 2 ^ (below + 1) = 2 * 2 ^ below := by ring
  refine ⟨fun j inside => ?_, fun i => ?_, ?_⟩
  · rw [right.scratch j (by omega), left.scratch j (by omega), scratch j inside]
  · have start : node_idx * 2 ^ (below + 1) = 2 * node_idx * 2 ^ below := by ring
    have middle : (2 * node_idx + 1) * 2 ^ below = 2 * node_idx * 2 ^ below + 2 ^ below := by ring
    have stop : (node_idx + 1) * 2 ^ (below + 1) = (2 * node_idx + 1 + 1) * 2 ^ below := by ring
    have final : (2 * node_idx + 1 + 1) * 2 ^ below =
      2 * node_idx * 2 ^ below + 2 ^ below + 2 ^ below := by ring
    rw [right.out, left.out, out, start, stop, middle, final]
    by_cases upper : 2 * node_idx * 2 ^ below + 2 ^ below ≤ i
    · by_cases within : i < 2 * node_idx * 2 ^ below + 2 ^ below + 2 ^ below
      · rw [if_pos ⟨upper, within⟩, if_pos (by omega)]
      · rw [if_neg (by omega), if_neg (by omega), if_neg (by omega)]
    · rw [if_neg (by omega)]
      exact if_congr (by omega) rfl rfl
  · obtain ⟨first, firstCalls, firstCongruent, firstNodes⟩ := left.calls
    obtain ⟨second, secondCalls, secondCongruent, secondNodes⟩ := right.calls
    refine ⟨call :: (first ++ second), ?_, ?_, ?_⟩
    · rw [secondCalls, firstCalls, calls]
      simp only [List.append_assoc, List.cons_append, List.nil_append]
    · intro other member
      rcases List.mem_cons.mp member with rfl | member
      · exact own
      · rcases List.mem_append.mp member with member | member
        · exact firstCongruent other member
        · exact secondCongruent other member
    · intro deep up sum i lower upper
      cases deep with
      | zero =>
        rw [pow_zero, Nat.mul_one] at lower upper
        exact ⟨call, List.mem_cons_self, by rw [level]; congr 1; omega, by omega⟩
      | succ deep =>
        have start : node_idx * 2 ^ (deep + 1) = 2 * node_idx * 2 ^ deep := by ring
        have stop : (node_idx + 1) * 2 ^ (deep + 1) = (2 * node_idx + 1 + 1) * 2 ^ deep := by ring
        rw [start] at lower
        rw [stop] at upper
        by_cases half : i < (2 * node_idx + 1) * 2 ^ deep
        · obtain ⟨other, member, found⟩ := firstNodes deep up (by omega) i lower half
          exact ⟨other, List.mem_cons_of_mem _ (List.mem_append_left _ member), found⟩
        · obtain ⟨other, member, found⟩ := secondNodes deep up (by omega) i (not_lt.mp half) upper
          exact ⟨other, List.mem_cons_of_mem _ (List.mem_append_right _ member), found⟩

/-- A remainder in the scratch, with the degree that is found for it. -/
theorem remainder_found {below i : ℕ} {f : Gf64[X]} {deg_f place : ℕ} {scratch : ℕ → Gf64}
    (words : ∀ k < 2 ^ below, scratch (place + k) = (f % nodePolynomial points below i).coeff k)
    (degree : f.natDegree ≤ deg_f) :
    remainderDegree (view scratch place) (2 ^ below) deg_f < 2 ^ below ∧
      firstTerms (view scratch place)
        (remainderDegree (view scratch place) (2 ^ below) deg_f + 1) =
          f % nodePolynomial points below i := by
  have nonzero := (nodePolynomial_monic points below i).ne_zero
  have whole : firstTerms (view scratch place) (2 ^ below) = f % nodePolynomial points below i := by
    refine firstTerms_eq words fun k beyond => ?_
    have small := degree_mod_lt f nonzero
    rw [degree_eq_natDegree nonzero, nodePolynomial_degree] at small
    exact coeff_eq_zero_of_degree_lt (small.trans_le (Nat.cast_le.mpr beyond))
  have covers := remainderDegree_covers (view scratch place) deg_f
    (Nat.two_pow_pos below) fun k above inside => ?zeros
  · exact ⟨covers.1, covers.2.trans whole⟩
  · refine (words k inside).trans ?_
    have smaller : f.degree < (nodePolynomial points below i).degree := by
      rw [degree_eq_natDegree nonzero, nodePolynomial_degree]
      exact (natDegree_le_iff_degree_le.mp degree).trans_lt (Nat.cast_lt.mpr (above.trans inside))
    rw [(mod_eq_self_iff nonzero).mpr smaller]
    exact coeff_eq_zero_of_natDegree_lt (degree.trans_lt above)

/-- The walk below any node ends, and has found the values at its leaves. -/
theorem walk (kernels : Kernels) (isTree : IsTree tree points L) (memory : 8 * 2 ^ L ≤ SIZE_MAX / 8)
    (polynomial : Gf64[X]) {lev below : ℕ} (level : lev + below = L) (f : Operand)
    {deg_f node_idx : ℕ} (place : ℕ) (state : EvalState) (node : node_idx < 2 ^ lev)
    (before : f.Before deg_f place) (degree : deg_f < 2 ^ below)
    (room : place + 8 * 2 ^ below ≤ 8 * 2 ^ L) (congruent : nodePolynomial points below node_idx ∣
      polynomial - firstTerms (f.read state.scratch) (deg_f + 1)) :
    ∃ last, gf64_mp_eval_recurse kernels tree (8 * 2 ^ L) ⟨8 * 2 ^ L, 0⟩ below f deg_f node_idx state
        place = some last ∧ Walked points L polynomial below node_idx place state last := by
  have addresses : SIZE_MAX / 8 ≤ SIZE_MAX / 3 := by decide
  have pos := Nat.two_pow_pos L
  induction below generalizing lev f deg_f node_idx state place with
  | zero =>
    obtain rfl : lev = L := by omega
    exact walk_leaf kernels isTree node (by rw [pow_zero] at degree; exact ne_of_lt (by omega)) congruent
  | succ below ih =>
    have children : lev + 1 + below = L := by omega
    obtain ⟨here, slot⟩ := isTree.frame level
    have double : 2 ^ (below + 1) = 2 * 2 ^ below := by ring
    have twice : 2 ^ (lev + 1) = 2 * 2 ^ lev := by ring
    have half := Nat.two_pow_pos below
    have small : deg_f < 2 * 2 ^ below := by omega
    have enough : HasRoom (some ⟨8 * 2 ^ L, 0⟩) (divmodWords deg_f (2 ^ below)) := by
      intro own same
      cases same
      have words := divmodWords_le small
      exact ⟨by dsimp only; omega, by dsimp only; omega⟩
    rw [gf64_mp_eval_recurse]
    simp only [here, slot, isTree.level_degs children]
    have split := nodePolynomial_succ points below node_idx
    obtain ⟨first, run, leftWords, leftKept⟩ := divideInto_remainder kernels
      state.scratch (f.read state.scratch) (place + 2 * 2 ^ below) place (2 * 2 ^ below)
      (isTree.child_lead children (by omega : 2 * node_idx < 2 ^ (lev + 1))) (by omega) enough
      (by omega) (by omega) (by omega) (by omega) (by omega : _ ≤ 8 * 2 ^ L)
    rw [isTree.child_firstTerms children (by omega)] at leftWords
    have sameOperand : firstTerms (f.read first) (deg_f + 1) =
        firstTerms (f.read state.scratch) (deg_f + 1) :=
      Operand.read_congr before fun j inside => leftKept j (by omega) (by omega)
    obtain ⟨second, again, rightWords, rightKept⟩ := divideInto_remainder kernels
      first (f.read first) (place + 3 * (2 * 2 ^ below)) (place + 2 * (2 * 2 ^ below)) (2 * 2 ^ below)
      (isTree.child_lead children (by omega : 2 * node_idx + 1 < 2 ^ (lev + 1))) (by omega) enough
      (by omega) (by omega) (by omega) (by omega) (by omega : _ ≤ 8 * 2 ^ L)
    rw [isTree.child_firstTerms children (by omega), sameOperand] at rightWords
    rw [run]
    simp only [Option.bind_eq_bind, Option.bind_some]
    rw [again]
    simp only [Option.bind_some]
    have bound := firstTerms_natDegree_le (f.read state.scratch) deg_f
    -- the left remainder is still there after the second division
    obtain ⟨leftDegree, leftRemainder⟩ := remainder_found
      (fun k inside => (rightKept _ (by omega) (by omega)).trans (leftWords k inside)) bound
    let begun : EvalState :=
      { state with
        scratch := second
        calls := state.calls ++ [⟨lev, node_idx, f.read state.scratch, deg_f⟩] }
    obtain ⟨middle, leftRun, leftWalked⟩ := ih children (.scratch place)
      (place + 4 * (2 * 2 ^ below)) begun (by omega : 2 * node_idx < 2 ^ (lev + 1))
      (show place + _ ≤ _ by omega) leftDegree (by omega)
      (by
        rw [Operand.read, leftRemainder]
        exact dvd_sub_mod congruent (split ▸ dvd_mul_right _ _))
    rw [leftRun]
    simp only [Option.bind_some]
    -- the right remainder has outlasted the left subtree
    obtain ⟨rightDegree, rightRemainder⟩ := remainder_found
      (fun k inside => (leftWalked.scratch _ (by omega)).trans (rightWords k inside)) bound
    obtain ⟨last, rightRun, rightWalked⟩ := ih children
      (.scratch (place + 2 * (2 * 2 ^ below))) (place + 4 * (2 * 2 ^ below)) middle
      (by omega : 2 * node_idx + 1 < 2 ^ (lev + 1))
      (show place + 2 * (2 * 2 ^ below) + _ ≤ _ by omega) rightDegree (by omega)
      (by
        rw [Operand.read, rightRemainder]
        exact dvd_sub_mod congruent (split ▸ dvd_mul_left _ _))
    refine ⟨last, rightRun, leftWalked.node (by omega) (fun j inside => ?_) rfl rfl ?_ ?_ rfl
      rightWalked⟩
    · exact (rightKept j (by omega) (by omega)).trans (leftKept j (by omega) (by omega))
    · have deep : L - lev = below + 1 := by omega
      rw [EvalCall.Congruent, deep]
      exact congruent
    · dsimp only
      omega

/-- The walk from the root ends, and has been at every node. -/
theorem evalWalk_walked (kernels : Kernels) (isTree : IsTree tree points L)
    (memory : 8 * 2 ^ L ≤ SIZE_MAX / 8) (f : ℕ → Gf64) {deg_f : ℕ} (degree : deg_f < 2 ^ L)
    (out : ℕ → Gf64) :
    ∃ state, evalWalk kernels f deg_f tree out = some state ∧
      (∀ i, state.out i =
        if i < 2 ^ L then (firstTerms f (deg_f + 1)).eval (points i) else out i) ∧
      (∀ call ∈ state.calls, call.Congruent points L (firstTerms f (deg_f + 1))) ∧
      ∀ lev ≤ L, ∀ i < 2 ^ lev, ∃ call ∈ state.calls, call.lev = lev ∧ call.node_idx = i := by
  have pos := Nat.two_pow_pos L
  obtain ⟨last, run, walked⟩ := walk kernels isTree memory (firstTerms f (deg_f + 1))
    (Nat.zero_add L) (.outside f) 0 { scratch := fun _ => 0, out := out, calls := [] } Nat.one_pos
    trivial degree (by omega) (by rw [Operand.read, sub_self]; exact dvd_zero _)
  refine ⟨last, ?_, fun i => ?_, ?_⟩
  · rw [evalWalk, isTree.num_points, isTree.num_levels, gf64_arena_init, if_neg (by omega),
      if_neg (not_lt.mpr memory)]
    exact run
  · rw [walked.out, Nat.zero_mul, Nat.zero_add, Nat.one_mul]
    exact if_congr (by omega) rfl rfl
  · obtain ⟨more, same, congruent, nodes⟩ := walked.calls
    rw [same, List.nil_append]
    refine ⟨congruent, fun lev le i inside => ?_⟩
    obtain ⟨call, member, level, index⟩ := nodes lev (L - lev) (by omega) i (by omega) (by omega)
    exact ⟨call, member, by omega, index⟩

/-- Either way to evaluate gives the values by Horner's rule. -/
theorem gf64_multi_point_eval_eq (kernels : Kernels) (isTree : IsTree tree points L)
    (memory : 8 * 2 ^ L ≤ SIZE_MAX / 8) (f : ℕ → Gf64) (deg_f : ℕ) (out : ℕ → Gf64) :
    gf64_multi_point_eval kernels f deg_f tree out = some fun i =>
      if i < 2 ^ L then horner_eval_poly f deg_f (points i) else out i := by
  have addresses : SIZE_MAX / 8 < SIZE_MAX := by decide
  have pos := Nat.two_pow_pos L
  rw [gf64_multi_point_eval, isTree.num_points, if_neg pos.ne']
  dsimp only
  split
  case isTrue direct =>
    rw [FallibleLoops.foldl_update_range fun j _ => horner_eval_poly f deg_f
      (tree.level_data (tree.num_levels - 1) 0 (2 * j))]
    refine congrArg some (funext fun i => ?_)
    split
    case isTrue inside => rw [isTree.leaf inside]
    case isFalse => rfl
  case isFalse walked =>
    obtain ⟨state, run, values, -⟩ :=
      evalWalk_walked kernels isTree memory f (by omega : deg_f < 2 ^ L) out
    rw [run, Option.map_some]
    refine congrArg some (funext fun i => ?_)
    rw [values, horner_eval_poly_eq f (by omega)]

end Walk

/-- The scratch and the arena of a walk fit in memory when the tree does. -/
theorem scratch_fits {L : ℕ} (memory : (L + 1) * 2 ^ L + (2 ^ (L + 1) - 1) ≤ SIZE_MAX / 8) :
    8 * 2 ^ L ≤ SIZE_MAX / 8 := by
  rcases Nat.lt_or_ge L 6 with small | large
  · have power : 2 ^ L ≤ 2 ^ 6 := Nat.pow_le_pow_right Nat.two_pos small.le
    exact (Nat.mul_le_mul_left 8 power).trans (by decide)
  · have rows : 7 * 2 ^ L ≤ (L + 1) * 2 ^ L := Nat.mul_le_mul_right _ (by omega)
    have double : 2 ^ (L + 1) = 2 * 2 ^ L := by ring
    have pos := Nat.two_pow_pos L
    omega

/-- For every polynomial and every list of points, the values by Horner's rule are written to the
leaves. Where the walk is taken, it ends, has been at every node, and the polynomial of every call
is congruent to the first one modulo the product of its node. -/
theorem values_reach_leaves (kernels : Kernels) (points : ℕ → Gf64) (L : ℕ)
    (memory : (L + 1) * 2 ^ L + (2 ^ (L + 1) - 1) ≤ SIZE_MAX / 8) (f : ℕ → Gf64) (deg_f : ℕ)
    (word : deg_f ≤ SIZE_MAX) (out : ℕ → Gf64) :
    ∃ tree, gf64_subproduct_tree_build kernels points (2 ^ L) = some tree ∧
      gf64_multi_point_eval kernels f deg_f tree out =
        some (fun i => if i < 2 ^ L then horner_eval_poly f deg_f (points i) else out i) ∧
      (∀ point, horner_eval_poly f deg_f point =
        (firstTerms f ((deg_f + 1) % (SIZE_MAX + 1))).eval point) ∧
      (deg_f < 2 ^ L → ∃ state, evalWalk kernels f deg_f tree out = some state ∧
        (∀ call ∈ state.calls, nodePolynomial points (L - call.lev) call.node_idx ∣
          firstTerms f (deg_f + 1) - firstTerms call.f (call.deg_f + 1)) ∧
        ∀ lev ≤ L, ∀ i < 2 ^ lev, ∃ call ∈ state.calls, call.lev = lev ∧ call.node_idx = i) := by
  obtain ⟨tree, built, isTree⟩ := gf64_subproduct_tree_build_eq kernels points L memory
  have room := scratch_fits memory
  refine ⟨tree, built, gf64_multi_point_eval_eq kernels isTree room f deg_f out, fun point => ?_,
    fun degree => ?_⟩
  · by_cases zero : deg_f = SIZE_MAX
    · rw [horner_eval_poly, if_pos zero, zero, Nat.mod_self, firstTerms, Finset.sum_range_zero,
        eval_zero]
    · rw [horner_eval_poly_eq f zero, Nat.mod_eq_of_lt (by omega)]
  · obtain ⟨state, run, -, congruent, nodes⟩ := evalWalk_walked kernels isTree room f degree out
    exact ⟨state, run, congruent, nodes⟩

/-- A line at two points that are the same. -/
theorem values_reach_leaves_two : ∃ tree,
    gf64_subproduct_tree_build ⟨false, true⟩ (fun _ => ⟨7⟩) (2 ^ 1) = some tree ∧
      gf64_multi_point_eval ⟨false, true⟩ (fun _ => 1) 1 tree (fun _ => 0) =
        some fun i => if i < 2 ^ 1 then horner_eval_poly (fun _ => 1) 1 ⟨7⟩ else 0 := by
  obtain ⟨tree, built, values, -⟩ := values_reach_leaves ⟨false, true⟩ (fun _ => ⟨7⟩) 1 (by decide)
    (fun _ => 1) 1 (by decide) fun _ => 0
  exact ⟨tree, built, values⟩

end Par3
