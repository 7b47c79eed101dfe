import Par3.Foundations.BinaryField
import Mathlib.Algebra.CharP.Two
import Mathlib.Algebra.CharP.Lemmas

/-!
# Novel polynomial bases in characteristic two

The map `y ↦ y² + y` is additive in characteristic two. Its iterates vanish on a
growing chain of subspaces, one new basis vector at a time, when the basis is a
chain of preimages of one. Products of the iterates, one for each set bit of an
index, form a basis of the polynomials in which evaluation over a subspace is a
butterfly network. A conversion between the monomials and this basis is a sequence
of additions of one coefficient to another; it is verified through what it does to
the weights with which the coefficients are summed.
-/

namespace NovelBasis

section Weights

variable {K : Type*} [CommSemiring K]

/-- The sum of the first coefficients, each with its weight. -/
def weigh (count : ℕ) (weight coefficients : ℕ → K) : K :=
  ∑ i ∈ Finset.range count, coefficients i * weight i

theorem weigh_congr {count : ℕ} {weight weight' coefficients coefficients' : ℕ → K}
    (weights : ∀ i < count, weight i = weight' i)
    (same : ∀ i < count, coefficients i = coefficients' i) :
    weigh count weight coefficients = weigh count weight' coefficients' := by
  apply Finset.sum_congr rfl
  intro i member
  have inside := Finset.mem_range.mp member
  rw [weights i inside, same i inside]

/-- The upper half of the coefficients carries one more factor. -/
theorem weigh_double (half : ℕ) (weight coefficients : ℕ → K) :
    weigh (half + half) weight coefficients =
      weigh half weight coefficients +
        weigh half (fun i => weight (half + i)) (fun i => coefficients (half + i)) :=
  Finset.sum_range_add _ _ _

end Weights

section Additions

variable {K : Type*} [Add K]

/-- `data[target] ^= data[source]`. -/
def xorInto (data : ℕ → K) (target source : ℕ) : ℕ → K :=
  Function.update data target (data target + data source)

theorem xorInto_of_ne (data : ℕ → K) {target source i : ℕ} (other : i ≠ target) :
    xorInto data target source i = data i :=
  Function.update_of_ne other _ _

@[simp] theorem xorInto_target (data : ℕ → K) (target source : ℕ) :
    xorInto data target source target = data target + data source :=
  Function.update_self _ _ _

/-- Additions commute when neither writes what the other adds. -/
theorem xorInto_comm {K : Type*} [AddCommSemigroup K] (data : ℕ → K) {t s t' s' : ℕ}
    (first : t ≠ s') (second : t' ≠ s) :
    xorInto (xorInto data t s) t' s' = xorInto (xorInto data t' s') t s := by
  funext i
  by_cases atFirst : i = t
  · subst atFirst
    by_cases same : i = t'
    · subst same
      simp only [xorInto_target]
      rw [xorInto_of_ne data (Ne.symm first), xorInto_of_ne data (Ne.symm second)]
      exact add_right_comm _ _ _
    · rw [xorInto_of_ne _ same, xorInto_target, xorInto_target, xorInto_of_ne _ same,
        xorInto_of_ne _ (Ne.symm second)]
  · by_cases atSecond : i = t'
    · subst atSecond
      rw [xorInto_target, xorInto_of_ne _ atFirst, xorInto_of_ne _ atFirst, xorInto_target,
        xorInto_of_ne _ (Ne.symm first)]
    · rw [xorInto_of_ne _ atSecond, xorInto_of_ne _ atFirst, xorInto_of_ne _ atFirst,
        xorInto_of_ne _ atSecond]

/-- A sequence of additions, in order. -/
def additions (data : ℕ → K) (pairs : List (ℕ × ℕ)) : ℕ → K :=
  pairs.foldl (fun data pair => xorInto data pair.1 pair.2) data

@[simp] theorem additions_nil (data : ℕ → K) : additions data [] = data := rfl

@[simp] theorem additions_cons (data : ℕ → K) (pair : ℕ × ℕ) (pairs : List (ℕ × ℕ)) :
    additions data (pair :: pairs) = additions (xorInto data pair.1 pair.2) pairs := rfl

@[simp] theorem additions_append (data : ℕ → K) (first second : List (ℕ × ℕ)) :
    additions data (first ++ second) = additions (additions data first) second :=
  List.foldl_append

/-- A loop of additions is the sequence of its pairs. -/
theorem foldl_xorInto {ι : Type*} (pair : ι → ℕ × ℕ) (indices : List ι) (data : ℕ → K) :
    indices.foldl (fun data i => xorInto data (pair i).1 (pair i).2) data =
      additions data (indices.map pair) := by
  rw [additions, List.foldl_map]

/-- A loop over blocks of additions is the sequence of the pairs of all blocks. -/
theorem foldl_additions {ι : Type*} (pairs : ι → List (ℕ × ℕ)) (blocks : List ι) (data : ℕ → K) :
    blocks.foldl (fun data block => additions data (pairs block)) data =
      additions data (blocks.flatMap pairs) := by
  induction blocks generalizing data with
  | nil => rfl
  | cons block blocks ih => rw [List.foldl_cons, ih, List.flatMap_cons, additions_append]

end Additions

section Undo

variable {K : Type*} [AddCommGroup K]

/-- Two sequences of additions are apart when no one writes what another adds. -/
def Apart (first second : List (ℕ × ℕ)) : Prop :=
  ∀ a ∈ first, ∀ b ∈ second, a.1 ≠ b.2 ∧ b.1 ≠ a.2

theorem xorInto_additions (data : ℕ → K) (pair : ℕ × ℕ) (pairs : List (ℕ × ℕ))
    (apart : Apart [pair] pairs) :
    additions (xorInto data pair.1 pair.2) pairs =
      xorInto (additions data pairs) pair.1 pair.2 := by
  induction pairs generalizing data with
  | nil => rfl
  | cons next pairs ih =>
    have now := apart pair (List.mem_singleton_self _) next (List.mem_cons_self ..)
    rw [additions_cons, xorInto_comm data now.1 now.2, ih]
    · rfl
    · intro a member b later
      exact apart a member b (List.mem_cons_of_mem _ later)

theorem additions_comm (data : ℕ → K) (first second : List (ℕ × ℕ))
    (apart : Apart first second) :
    additions (additions data first) second = additions (additions data second) first := by
  induction first generalizing data with
  | nil => rfl
  | cons pair pairs ih =>
    rw [additions_cons, ih, xorInto_additions]
    · rfl
    · intro a member b later
      rw [List.mem_singleton] at member
      subst member
      exact apart a (List.mem_cons_self ..) b later
    · intro a member b later
      exact apart a (List.mem_cons_of_mem _ member) b later

/-- In characteristic two, an addition to another place is its own inverse. -/
theorem xorInto_twice (involutive : ∀ x : K, x + x = 0) (data : ℕ → K) {target source : ℕ}
    (different : target ≠ source) :
    xorInto (xorInto data target source) target source = data := by
  funext i
  by_cases same : i = target
  · subst same
    rw [xorInto_target, xorInto_target, xorInto_of_ne data (Ne.symm different), add_assoc,
      involutive, add_zero]
  · rw [xorInto_of_ne _ same, xorInto_of_ne _ same]

/-- Additions in the opposite order undo a sequence. -/
theorem additions_reverse (involutive : ∀ x : K, x + x = 0) (data : ℕ → K)
    (pairs : List (ℕ × ℕ)) (proper : ∀ pair ∈ pairs, pair.1 ≠ pair.2) :
    additions (additions data pairs) pairs.reverse = data := by
  induction pairs generalizing data with
  | nil => rfl
  | cons pair pairs ih =>
    rw [additions_cons, List.reverse_cons, additions_append,
      ih _ fun later member => proper later (List.mem_cons_of_mem _ member)]
    exact xorInto_twice involutive data (proper pair (List.mem_cons_self ..))

/-- Sequences that are apart from each other are undone one by one, in the same order. -/
theorem flatMap_reverse (involutive : ∀ x : K, x + x = 0) {ι : Type*} (parts : List ι)
    (pairs : ι → List (ℕ × ℕ)) (data : ℕ → K)
    (proper : ∀ part ∈ parts, ∀ pair ∈ pairs part, pair.1 ≠ pair.2)
    (apart : parts.Pairwise fun a b => Apart (pairs a) (pairs b)) :
    additions (additions data (parts.flatMap pairs))
      (parts.flatMap fun part => (pairs part).reverse) = data := by
  induction parts generalizing data with
  | nil => rfl
  | cons part parts ih =>
    obtain ⟨first, rest⟩ := List.pairwise_cons.mp apart
    have later : Apart (parts.flatMap pairs) (pairs part).reverse := by
      intro a member b inPart
      obtain ⟨other, known, inside⟩ := List.mem_flatMap.mp member
      have separate := first other known b (List.mem_reverse.mp inPart) a inside
      exact ⟨separate.2, separate.1⟩
    rw [List.flatMap_cons, List.flatMap_cons, additions_append, additions_append,
      additions_comm _ _ _ later,
      additions_reverse involutive data _ (proper part (List.mem_cons_self ..))]
    exact ih data (fun other member => proper other (List.mem_cons_of_mem _ member)) rest

end Undo

/-- A vector, continued by zeros. -/
def Ends {K : Type*} [Zero K] (n : ℕ) (data : ℕ → K) : Prop := ∀ i, n ≤ i → data i = 0

section Lengths

variable {K : Type*} [AddMonoid K] {n : ℕ} {data : ℕ → K}

theorem ends_xorInto {pair : ℕ × ℕ} (ends : Ends n data) (down : pair.1 < pair.2) :
    Ends n (xorInto data pair.1 pair.2) := by
  intro i beyond
  by_cases target : i = pair.1
  · rw [target, xorInto_target, ends _ (target ▸ beyond), ends _ (by omega), add_zero]
  · rw [xorInto_of_ne data target, ends i beyond]

theorem ends_additions {pairs : List (ℕ × ℕ)} (ends : Ends n data)
    (down : ∀ pair ∈ pairs, pair.1 < pair.2) : Ends n (additions data pairs) := by
  induction pairs generalizing data with
  | nil => exact ends
  | cons pair pairs ih =>
    exact ih (ends_xorInto ends (down pair List.mem_cons_self)) fun later member =>
      down later (List.mem_cons_of_mem _ member)

/-- Adding what lies past the end changes nothing. -/
theorem additions_filter {pairs : List (ℕ × ℕ)} (ends : Ends n data)
    (down : ∀ pair ∈ pairs, pair.1 < pair.2) :
    additions data pairs =
      additions data (pairs.filter fun pair => pair.2 < n) := by
  induction pairs generalizing data with
  | nil => rfl
  | cons pair pairs ih =>
    have later := fun other member => down other (List.mem_cons_of_mem pair member)
    rw [additions_cons, ih (ends_xorInto ends (down pair List.mem_cons_self)) later]
    by_cases inside : pair.2 < n
    · rw [List.filter_cons_of_pos (by simpa using inside), additions_cons]
    · have nothing : xorInto data pair.1 pair.2 = data := by
        rw [xorInto, ends pair.2 (by omega), add_zero, Function.update_eq_self]
      rw [List.filter_cons_of_neg (by simpa using inside), nothing]

end Lengths

/-- Where the vectors are finitely many, a map that undoes another is undone by it. -/
theorem right_inverse_of_left {K : Type*} [Finite K] [Zero K] {n : ℕ}
    (convert back : (ℕ → K) → ℕ → K)
    (confined : ∀ g g', (∀ i < n, g i = g' i) → ∀ i < n, back g i = back g' i)
    (left : ∀ f, ∀ i < n, back (convert f) i = f i) (g : ℕ → K) :
    ∀ i < n, convert (back g) i = g i := by
  let extend : (Fin n → K) → ℕ → K := fun v i => if inside : i < n then v ⟨i, inside⟩ else 0
  let onVectors : (Fin n → K) → Fin n → K := fun v i => back (extend v) i
  have restricted (v : ℕ → K) (i : Fin n) : onVectors (fun j => v j) i = back v i :=
    confined _ v (fun _ inside => dif_pos inside) i i.isLt
  have onto : Function.Surjective onVectors := by
    intro w
    refine ⟨fun i => convert (extend w) i, funext fun i => ?_⟩
    rw [restricted (convert (extend w)), left _ i i.isLt]
    exact dif_pos i.isLt
  have oneToOne := Finite.injective_iff_surjective.mpr onto
  have same : (fun i : Fin n => convert (back g) i) = fun i : Fin n => g i := by
    refine oneToOne (funext fun i => ?_)
    rw [restricted (convert (back g)), restricted g, left _ i i.isLt]
  exact fun i inside => congrFun same ⟨i, inside⟩

section Dual

variable {K : Type*} [CommRing K]

/-- An addition of coefficients is an addition of weights the other way. -/
theorem weigh_xorInto {count target source : ℕ} (inTarget : target < count)
    (inSource : source < count) (weight data : ℕ → K) :
    weigh count weight (xorInto data target source) =
      weigh count (Function.update weight source (weight source + weight target)) data := by
  have left : weigh count weight (xorInto data target source) =
      weigh count weight data + data source * weight target := by
    have split := Finset.sum_erase_add (Finset.range count)
      (fun i => data i * weight i) (Finset.mem_range.mpr inTarget)
    rw [weigh, weigh, ← Finset.sum_erase_add (Finset.range count) _
      (Finset.mem_range.mpr inTarget), ← split, xorInto_target, add_mul, add_assoc]
    congr 1
    apply Finset.sum_congr rfl
    intro i member
    rw [xorInto_of_ne data (Finset.ne_of_mem_erase member)]
  have right : weigh count (Function.update weight source (weight source + weight target)) data =
      weigh count weight data + data source * weight target := by
    have split := Finset.sum_erase_add (Finset.range count)
      (fun i => data i * weight i) (Finset.mem_range.mpr inSource)
    rw [weigh, weigh, ← Finset.sum_erase_add (Finset.range count) _
      (Finset.mem_range.mpr inSource), ← split, Function.update_self, mul_add, add_assoc]
    congr 1
    apply Finset.sum_congr rfl
    intro i member
    rw [Function.update_of_ne (Finset.ne_of_mem_erase member)]
  rw [left, right]

/-- A descending run of additions at one distance. The new weights repeat the old ones
below the run, and inside the run each is the old one plus the new one a distance below. -/
theorem weigh_descending {count start length base distance : ℕ} (weight weight' data : ℕ → K)
    (pos : 0 < distance) (reach : distance ≤ start)
    (inside : base + start + length ≤ count)
    (outside : ∀ i < count, i < base + start ∨ base + start + length ≤ i → weight' i = weight i)
    (run : ∀ i, start ≤ i → i < start + length →
      weight' (base + i) = weight (base + i) + weight' (base + (i - distance))) :
    weigh count weight
        (additions data ((List.range' start length).reverse.map
          fun i => (base + (i - distance), base + i))) =
      weigh count weight' data := by
  induction length generalizing weight' data with
  | zero =>
    apply weigh_congr
    · intro i less
      exact (outside i less (by omega)).symm
    · intro i _
      rfl
  | succ length ih =>
    rw [List.range'_1_concat, List.reverse_append, List.reverse_singleton, List.singleton_append,
      List.map_cons, additions_cons]
    -- the run without its top index ends in the weights that still have the old top
    let lower := Function.update weight' (base + (start + length)) (weight (base + (start + length)))
    rw [ih lower]
    · rw [weigh_xorInto (by omega) (by omega)]
      apply weigh_congr
      · intro i _
        by_cases top : i = base + (start + length)
        · rw [top, Function.update_self, run _ (by omega) (by omega)]
          simp only [lower]
          rw [Function.update_self, Function.update_of_ne (by omega)]
        · rw [Function.update_of_ne top]
          exact Function.update_of_ne top _ _
      · intro i _
        rfl
    · omega
    · intro i less apart
      by_cases top : i = base + (start + length)
      · rw [top]
        exact Function.update_self _ _ _
      · simp only [lower]
        rw [Function.update_of_ne top]
        exact outside i less (by omega)
    · intro i low high
      simp only [lower]
      rw [Function.update_of_ne (by omega), Function.update_of_ne (by omega)]
      exact run i low (by omega)

/-- The same run in every block of the data. -/
theorem weigh_blocks {count blocks length start distance : ℕ} (weight weight' data : ℕ → K)
    (pos : 0 < distance) (reach : distance ≤ start) (short : start ≤ length)
    (inside : blocks * length ≤ count)
    (low : ∀ block < blocks, ∀ i < start,
      weight' (block * length + i) = weight (block * length + i))
    (run : ∀ block < blocks, ∀ i, start ≤ i → i < length →
      weight' (block * length + i) =
        weight (block * length + i) + weight' (block * length + (i - distance)))
    (beyond : ∀ i < count, blocks * length ≤ i → weight' i = weight i) :
    weigh count weight
        (additions data ((List.range blocks).flatMap fun block =>
          (List.range' start (length - start)).reverse.map
            fun i => (block * length + (i - distance), block * length + i))) =
      weigh count weight' data := by
  induction blocks generalizing weight with
  | zero =>
    apply weigh_congr
    · intro i less
      exact (beyond i less (by omega)).symm
    · intro i _
      rfl
  | succ blocks ih =>
    have size : (blocks + 1) * length = blocks * length + length := by ring
    -- the last block runs last: before it, that block already has its new weights
    let between := fun i => if i < blocks * length then weight i else weight' i
    rw [List.range_succ, List.flatMap_append, List.flatMap_singleton, additions_append,
      weigh_descending weight between]
    · apply ih
      · omega
      · intro block less i below
        simp only [between]
        have before : block * length + i < blocks * length := by
          calc block * length + i < block * length + length := by omega
            _ = (block + 1) * length := by ring
            _ ≤ blocks * length := Nat.mul_le_mul_right _ less
        rw [if_pos before]
        exact low block (by omega) i below
      · intro block less i above below
        simp only [between]
        have before : block * length + i < blocks * length := by
          calc block * length + i < block * length + length := by omega
            _ = (block + 1) * length := by ring
            _ ≤ blocks * length := Nat.mul_le_mul_right _ less
        rw [if_pos before]
        exact run block (by omega) i above below
      · intro i _ after
        simp only [between]
        rw [if_neg (by omega)]
    · exact pos
    · exact reach
    · omega
    · intro i less apart
      simp only [between]
      by_cases before : i < blocks * length
      · rw [if_pos before]
      · rw [if_neg before]
        by_cases head : i < blocks * length + start
        · have known := low blocks (Nat.lt_succ_self _) (i - blocks * length) (by omega)
          rwa [Nat.add_sub_cancel' (by omega)] at known
        · exact beyond i less (by omega)
    · intro i above below
      simp only [between]
      rw [if_neg (by omega), if_neg (by omega)]
      exact run blocks (Nat.lt_succ_self _) i above (by omega)

end Dual

section Subspaces

variable {K : Type*} [Field K] [CharP K 2]

/-- The map `y ↦ y² + y`, additive in characteristic two. -/
def artinSchreier : AddMonoid.End K where
  toFun y := y ^ 2 + y
  map_zero' := by simp
  map_add' x y := by
    rw [CharTwo.add_sq]
    ring

/-- The iterates of the map: `vanish b` is zero on the span of the first `b` basis vectors. -/
def vanish (b : ℕ) : AddMonoid.End K := artinSchreier ^ b

@[simp] theorem vanish_zero (y : K) : vanish 0 y = y := rfl

theorem vanish_one (y : K) : vanish 1 y = y ^ 2 + y := by
  rw [vanish, pow_one]
  rfl

theorem vanish_add (a b : ℕ) (y : K) : vanish (a + b) y = vanish a (vanish b y) := by
  rw [vanish, pow_add]
  rfl

/-- At a power of two the iterate has two terms only. -/
theorem vanish_two_pow (k : ℕ) (y : K) : vanish (2 ^ k) y = y ^ 2 ^ 2 ^ k + y := by
  induction k generalizing y with
  | zero => simpa using vanish_one y
  | succ k ih =>
    have cancel := CharTwo.add_self_eq_zero (y ^ 2 ^ 2 ^ k)
    have double : 2 ^ (k + 1) = 2 ^ k + 2 ^ k := by ring
    rw [double, vanish_add, ih, ih, add_pow_char_pow, ← pow_mul, ← pow_add]
    calc y ^ 2 ^ (2 ^ k + 2 ^ k) + y ^ 2 ^ 2 ^ k + (y ^ 2 ^ 2 ^ k + y)
        = y ^ 2 ^ (2 ^ k + 2 ^ k) + (y ^ 2 ^ 2 ^ k + y ^ 2 ^ 2 ^ k) + y := by ring
      _ = y ^ 2 ^ (2 ^ k + 2 ^ k) + y := by rw [cancel, add_zero]

/-- A power of the two-term iterate has two terms again. -/
theorem vanish_two_pow_pow (k j : ℕ) (y : K) :
    vanish (2 ^ k) y ^ 2 ^ j = y ^ 2 ^ (2 ^ k + j) + y ^ 2 ^ j := by
  rw [vanish_two_pow, add_pow_char_pow, ← pow_mul, ← pow_add]

/-- A chain of preimages of one: the basis vectors of the evaluation points. -/
structure CantorBasis (basis : ℕ → K) (count : ℕ) : Prop where
  first : basis 0 = 1
  next : ∀ i, i + 1 < count → basis (i + 1) ^ 2 + basis (i + 1) = basis i

/-- The point with the given index: the sum of the basis vectors at its set bits. -/
def point (basis : ℕ → K) (count index : ℕ) : K :=
  BinaryField.bitSum basis index.testBit count

variable {basis : ℕ → K} {count : ℕ}

theorem vanish_basis (cantor : CantorBasis basis count) {b i : ℕ} (le : b ≤ i)
    (inside : i < count) : vanish b (basis i) = basis (i - b) := by
  induction b with
  | zero => rfl
  | succ b ih =>
    have step : i - b = (i - (b + 1)) + 1 := by omega
    rw [add_comm b 1, vanish_add, ih (by omega), vanish_one, step,
      cantor.next _ (by omega), add_comm 1 b]

theorem vanish_basis_of_lt (cantor : CantorBasis basis count) {b i : ℕ} (lt : i < b)
    (inside : i < count) : vanish b (basis i) = 0 := by
  have split : b = (b - (i + 1)) + (1 + i) := by omega
  rw [split, vanish_add, vanish_add, vanish_basis cantor le_rfl inside, Nat.sub_self,
    cantor.first, vanish_one, one_pow, CharTwo.add_self_eq_zero]
  exact map_zero _

/-- An iterate shifts the index of a point. -/
theorem vanish_point (cantor : CantorBasis basis count) {b index : ℕ}
    (inside : index < 2 ^ count) :
    vanish b (point basis count index) = point basis count (index >>> b) := by
  have image : vanish b (point basis count index) =
      BinaryField.bitSum (fun i => vanish b (basis i)) index.testBit count :=
    BinaryField.map_bitSum (vanish b : AddMonoid.End K) basis index.testBit count
  rw [image, point]
  by_cases all : count ≤ b
  · -- every basis vector vanishes, and no bit is left after the shift
    have none : ∀ i, (index >>> b).testBit i = false := by
      intro i
      rw [Nat.testBit_shiftRight]
      exact Nat.testBit_eq_false_of_lt
        (inside.trans_le (Nat.pow_le_pow_right two_pos (by omega)))
    simp only [BinaryField.bitSum]
    apply Finset.sum_congr rfl
    intro i member
    have within := Finset.mem_range.mp member
    rw [vanish_basis_of_lt cantor (by omega) within]
    simp only [none, ite_self, Bool.false_eq_true, if_false]
  · obtain ⟨more, rfl⟩ : ∃ more, count = b + more := ⟨count - b, by omega⟩
    simp only [BinaryField.bitSum]
    have low : ∀ i ∈ Finset.range b,
        (if index.testBit i then vanish b (basis i) else 0) = 0 := by
      intro i member
      rw [vanish_basis_of_lt cantor (Finset.mem_range.mp member) (by grind), ite_self]
    have high : ∀ i ∈ Finset.range more,
        (if index.testBit (b + i) then vanish b (basis (b + i)) else 0) =
          if (index >>> b).testBit i then basis i else 0 := by
      intro i member
      have within := Finset.mem_range.mp member
      rw [vanish_basis cantor (by omega) (by omega), Nat.testBit_shiftRight,
        Nat.add_sub_cancel_left]
    have beyond : ∀ i ∈ Finset.range b,
        (if (index >>> b).testBit (more + i) then basis (more + i) else 0) = 0 := by
      intro i _
      rw [Nat.testBit_shiftRight, Nat.testBit_eq_false_of_lt]
      · rfl
      · exact inside.trans_le (Nat.pow_le_pow_right two_pos (by omega))
    rw [Finset.sum_range_add, Finset.sum_eq_zero low, zero_add, Finset.sum_congr rfl high,
      add_comm b more, Finset.sum_range_add, Finset.sum_eq_zero beyond, add_zero]

/-! ## The basis of products -/

/-- The product of the iterates at the set bits of the index. -/
def novel (bits index : ℕ) (y : K) : K :=
  ∏ b ∈ Finset.range bits, if index.testBit b then vanish b y else 1

@[simp] theorem novel_zero (index : ℕ) (y : K) : novel 0 index y = 1 := rfl

theorem novel_congr {bits index index' : ℕ} (y : K)
    (same : ∀ b < bits, index.testBit b = index'.testBit b) :
    novel bits index y = novel bits index' y := by
  apply Finset.prod_congr rfl
  intro b member
  rw [same b (Finset.mem_range.mp member)]

/-- The low bits and the high bits of an index contribute separate factors. -/
theorem novel_add (low high index : ℕ) (y : K) :
    novel (low + high) index y =
      novel low (index % 2 ^ low) y * novel high (index / 2 ^ low) (vanish low y) := by
  rw [novel, Finset.prod_range_add, novel, novel]
  congr 1
  · apply Finset.prod_congr rfl
    intro b member
    rw [Nat.testBit_mod_two_pow, decide_eq_true (Finset.mem_range.mp member), Bool.true_and]
  · apply Finset.prod_congr rfl
    intro b _
    rw [Nat.testBit_div_two_pow, ← vanish_add, add_comm low b]

/-- The value at a point of the polynomial with these coefficients in the basis. -/
def evaluate (bits : ℕ) (coefficients : ℕ → K) (y : K) : K :=
  weigh (2 ^ bits) (fun i => novel bits i y) coefficients

/-- One butterfly: the value folds the upper half onto the lower half. -/
theorem evaluate_succ (bits : ℕ) (coefficients : ℕ → K) (y : K) :
    evaluate (bits + 1) coefficients y =
      evaluate bits (fun i => coefficients i + vanish bits y * coefficients (2 ^ bits + i)) y := by
  have low : ∀ i < 2 ^ bits, novel (bits + 1) i y = novel bits i y := by
    intro i inside
    rw [novel, Finset.prod_range_succ, Nat.testBit_eq_false_of_lt inside]
    exact mul_one _
  have high : ∀ i < 2 ^ bits,
      novel (bits + 1) (2 ^ bits + i) y = vanish bits y * novel bits i y := by
    intro i inside
    rw [novel, Finset.prod_range_succ, Nat.testBit_two_pow_add_eq,
      Nat.testBit_eq_false_of_lt inside, mul_comm]
    congr 1
    apply novel_congr
    intro b below
    exact Nat.testBit_two_pow_add_gt below i
  have double : 2 ^ (bits + 1) = 2 ^ bits + 2 ^ bits := by ring
  rw [evaluate, evaluate, double, weigh_double]
  simp only [weigh]
  rw [← Finset.sum_add_distrib]
  apply Finset.sum_congr rfl
  intro i member
  have inside := Finset.mem_range.mp member
  rw [low i inside, high i inside]
  ring

end Subspaces

end NovelBasis
