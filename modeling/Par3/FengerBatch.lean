import Par3.Fenger

/-!
# The walks of a pass

All words of a pass go down and up the trees together, each in a slab of its own. For every word the
walks leave what a walk for this word alone would leave: the combination of its values at the leaves,
and the values of its polynomial at the points.
-/

namespace Par3

open Polynomial ProductTree PolynomialDivision

theorem productLength_le_pow {len_shared len_f out_len m : ℕ} (product : len_shared + len_f - 1 ≤ 2 ^ m)
    (out : out_len ≤ 2 ^ m) : productLength len_shared len_f out_len ≤ 2 ^ m :=
  Nat.pow_le_pow_right Nat.two_pos (Nat.clog_le_of_le_pow (max_le product out))

/-- What the gate promises of the lengths. -/
theorem eligible_fits {len_a len_b out_len : ℕ} (eligible : fenger_hqc_eligible len_a len_b out_len = true) :
    0 < len_a ∧ 0 < len_b ∧ 0 < out_len ∧ max (2 * max len_a len_b - 1) out_len ≤ GF64_HQC_MAX_LM_N := by
  have holds := of_decide_eq_true eligible
  have least : 0 < GF64_HQC_FFT_MIN := by decide
  exact ⟨least.trans_le holds.1, least.trans_le holds.2.1, least.trans_le holds.2.2.1, holds.2.2.2.2.2⟩

theorem fenger_horner_eq (f : ℕ → Gf64) {deg : ℕ} (degree : deg ≠ SIZE_MAX) (x : Gf64) :
    fenger_horner f deg x = (firstTerms f (deg + 1)).eval x := by
  rw [← horner_eval_poly_eq f degree, horner_eval_poly, if_neg degree]
  rfl

namespace BatchWalk

/-! ## Interpolation -/

section Interpolation

variable (walk : BatchWalk)

/-- The slabs of both products of a node. -/
def Products (words : ℕ → Gf64) (K : ℕ) (P_L P_R : Gf64[X]) (slot0 slot1 slot2 slot3 f_size : ℕ)
    (last : ℕ → Gf64) : Prop :=
  (∀ k < K, ∀ i < 2 * f_size,
    last (slot2 + k * (2 * f_size) + i) =
      (P_R * firstTerms (view words (slot0 + k * f_size)) f_size).coeff i ∧
    last (slot3 + k * (2 * f_size) + i) =
      (P_L * firstTerms (view words (slot1 + k * f_size)) f_size).coeff i) ∧
  ∀ j < slot2, last j = words j

variable (words P_L P_R : ℕ → Gf64) {slot0 slot1 slot2 slot3 f_size : ℕ}
  (first : slot0 + walk.K * f_size ≤ slot2) (second : slot1 + walk.K * f_size ≤ slot2)
  (third : slot2 + walk.K * (2 * f_size) ≤ slot3) (inside : slot3 + walk.K * (2 * f_size) ≤ walk.size)

include first second third inside

theorem multiplyEach_products (fits : 2 * f_size ≤ SIZE_MAX) :
    ∃ last, walk.multiplyEach words P_L P_R slot0 slot1 slot2 slot3 f_size (2 * f_size) = some last ∧
      Products words walk.K (firstTerms P_L (f_size + 1)) (firstTerms P_R (f_size + 1)) slot0 slot1
        slot2 slot3 f_size last := by
  rw [multiplyEach]
  refine (Slabs.foldlM_regions
    (fun k j => slot2 + k * (2 * f_size) ≤ j ∧ j < slot2 + k * (2 * f_size) + 2 * f_size ∨
      slot3 + k * (2 * f_size) ≤ j ∧ j < slot3 + k * (2 * f_size) + 2 * f_size)
    (fun k memory => ∀ i < 2 * f_size,
      memory (slot2 + k * (2 * f_size) + i) = (firstTerms P_R (f_size + 1) *
        firstTerms (view words (slot0 + k * f_size)) f_size).coeff i ∧
      memory (slot3 + k * (2 * f_size) + i) = (firstTerms P_L (f_size + 1) *
        firstTerms (view words (slot1 + k * f_size)) f_size).coeff i)
    walk.K ?each ?lasting).imp fun last done =>
      ⟨done.1, done.2.1, fun j below => done.2.2 j fun k member => by omega⟩
  case each =>
    intro k member memory same
    have slab := Slabs.slab_le member (2 * f_size)
    have part := Slabs.slab_le member f_size
    have unchanged {j : ℕ} (below : j < slot2) : memory j = words j :=
      same j fun i before => by have order := Slabs.slab_le before (2 * f_size); omega
    rw [mulPaddedInto_eq _ _ _ _ _ _ _ (by omega)]
    simp only [Option.bind_eq_bind, Option.bind_some]
    obtain ⟨middle, put, there, others⟩ := putWords_put memory (fun i => if i < 2 * f_size then
        (firstTerms P_R (f_size + 1) * firstTerms (view memory (slot0 + k * f_size)) f_size).coeff i
      else view memory (slot2 + k * (2 * f_size)) i)
      (by omega : slot2 + k * (2 * f_size) + 2 * f_size ≤ walk.size)
    rw [put]
    simp only [Option.bind_some]
    rw [mulPaddedInto_eq _ _ _ _ _ _ _ (by omega)]
    simp only [Option.bind_some]
    obtain ⟨next, putNext, thereNext, othersNext⟩ := putWords_put middle (fun i => if i < 2 * f_size then
        (firstTerms P_L (f_size + 1) * firstTerms (view middle (slot1 + k * f_size)) f_size).coeff i
      else view middle (slot3 + k * (2 * f_size)) i)
      (by omega : slot3 + k * (2 * f_size) + 2 * f_size ≤ walk.size)
    refine ⟨next, putNext, fun i within => ⟨?_, ?_⟩, fun j outside => ?_⟩
    · have left : firstTerms (view memory (slot0 + k * f_size)) f_size =
          firstTerms (view words (slot0 + k * f_size)) f_size :=
        firstTerms_congr fun i below => unchanged (by omega)
      rw [othersNext _ (by omega), there i within, if_pos within, left]
    · have right : firstTerms (view middle (slot1 + k * f_size)) f_size =
          firstTerms (view words (slot1 + k * f_size)) f_size :=
        firstTerms_congr fun i below => (others _ (by omega)).trans (unchanged (by omega))
      rw [thereNext i within, if_pos within, right]
    · rw [othersNext j (by omega), others j (by omega)]
  case lasting =>
    intro i k before member memory next others written w within
    have slab := Slabs.slab_le before (2 * f_size)
    have end_ := Slabs.slab_le member (2 * f_size)
    exact ⟨(others _ (by omega)).trans (written w within).1,
      (others _ (by omega)).trans (written w within).2⟩

theorem multiplyShared_products {below : ℕ} (size : f_size = 2 ^ below)
    (eligible : fenger_hqc_eligible (f_size + 1) f_size (2 * f_size) = true)
    (available : 32 * (2 * f_size) ≤ walk.room) :
    ∃ middle last, walk.multiply words slot2 (2 * f_size) P_R (f_size + 1) slot0 f_size (2 * f_size)
          (32 * (2 * f_size)) = some middle ∧
      walk.multiply middle slot3 (2 * f_size) P_L (f_size + 1) slot1 f_size (2 * f_size)
        (32 * (2 * f_size)) = some last ∧
      Products words walk.K (firstTerms P_L (f_size + 1)) (firstTerms P_R (f_size + 1)) slot0 slot1
        slot2 slot3 f_size last := by
  obtain ⟨_, some_f, someOut, fits⟩ := eligible_fits eligible
  have double : 2 ^ (below + 1) = 2 * f_size := by rw [size]; ring
  have length : productLength (f_size + 1) f_size (2 * f_size) ≤ 2 * f_size :=
    double ▸ productLength_le_pow (by omega) (by omega)
  have small : max (f_size + 1 + f_size - 1) (2 * f_size) ≤ GF64_HQC_MAX_LM_N := by omega
  have enough : 4 * productLength (f_size + 1) f_size (2 * f_size) ≤ 32 * (2 * f_size) := by omega
  have later {slot place : ℕ} (apart : slot + walk.K * f_size ≤ place) {k : ℕ} (member : k < walk.K) :
      place + k * (2 * f_size) ≤ slot + k * f_size ∨ slot + k * f_size + f_size ≤ place := by
    have part := Slabs.slab_le member f_size
    omega
  obtain ⟨middle, run, written, others⟩ := Interleaved.fenger_batch_shared_mul_eq words P_R walk.K slot0
    le_rfl (by omega : slot2 + walk.K * (2 * f_size) ≤ walk.size) (Nat.succ_pos f_size) some_f someOut
    small walk.kernels _ enough available fun k member => later first member
  obtain ⟨last, runLast, writtenLast, othersLast⟩ := Interleaved.fenger_batch_shared_mul_eq middle P_L walk.K
    slot1 le_rfl inside (Nat.succ_pos f_size) some_f someOut small walk.kernels _ enough available
    fun k member => later (by omega) member
  refine ⟨middle, last, run, runLast, fun k member i within => ⟨?_, ?_⟩, fun j below => ?_⟩
  · have slab := Slabs.slab_le member (2 * f_size)
    rw [othersLast _ (by omega), written k member i within]
  · have part := Slabs.slab_le member f_size
    have right : firstTerms (view middle (slot1 + k * f_size)) f_size =
        firstTerms (view words (slot1 + k * f_size)) f_size :=
      firstTerms_congr fun i below => others _ (by omega)
    rw [writtenLast k member i within, right]
  · rw [othersLast j (by omega), others j (by omega)]

theorem multiplyBoth_products {below : ℕ} (size : f_size = 2 ^ below) (fits : 2 * f_size ≤ SIZE_MAX)
    (available : 32 * (2 * f_size) ≤ walk.room) :
    ∃ last, walk.multiplyBoth words P_L P_R slot0 slot1 slot2 slot3 f_size (2 * f_size) = some last ∧
      Products words walk.K (firstTerms P_L (f_size + 1)) (firstTerms P_R (f_size + 1)) slot0 slot1
        slot2 slot3 f_size last := by
  rw [multiplyBoth]
  split
  case isTrue eligible =>
    obtain ⟨middle, last, run, runLast, both⟩ :=
      walk.multiplyShared_products words P_L P_R first second third inside size eligible available
    simp only [Option.bind_eq_bind]
    rw [run, Option.bind_some]
    exact ⟨last, runLast, both⟩
  case isFalse => exact walk.multiplyEach_products words P_L P_R first second third inside fits

end Interpolation

section Combine

variable (walk : BatchWalk) {points : ℕ → Gf64} {L : ℕ} (isTree : IsTree walk.tree points L)
  (memory : 8 * 2 ^ L ≤ SIZE_MAX / 8) (products : 32 * 2 ^ L ≤ walk.room) (z : ℕ → Gf64)

include isTree memory products

/-- The walk below any node ends, and has the combination of every word. -/
theorem recurse_batch_combines {lev below : ℕ} (level : lev + below = L) {node_idx : ℕ}
    (node : node_idx < 2 ^ lev) (out words : ℕ → Gf64) (place : ℕ)
    (room : place + 6 * walk.K * 2 ^ below ≤ walk.size) :
    ∃ poly last, walk.fenger_interp_recurse_batch z below node_idx (node_idx * 2 ^ below) out words
        place = some (poly, last) ∧
      (∀ k < walk.K, ∀ i < 2 ^ below, poly (k * 2 ^ below + i) =
        (nodeCombination points (view z (k * 2 ^ L)) below node_idx).coeff i) ∧
      ∀ j < place, last j = words j := by
  have addresses : SIZE_MAX / 8 < SIZE_MAX := by decide
  induction below generalizing lev node_idx out words place with
  | zero =>
    refine ⟨_, words, rfl, fun k member i within => ?_, fun _ _ => rfl⟩
    obtain rfl : i = 0 := by omega
    rw [pow_zero, Nat.mul_one, Nat.add_zero, if_pos member, nodeCombination_zero, coeff_C_zero,
      isTree.num_points, Nat.mul_one]
    rfl
  | succ below ih =>
    have children : lev + 1 + below = L := by omega
    obtain ⟨here, slot⟩ := isTree.frame level
    have double : 2 ^ (below + 1) = 2 * 2 ^ below := by ring
    have twice : 2 ^ (lev + 1) = 2 * 2 ^ lev := by ring
    have half : (2 * 2 ^ below) >>> 1 = 2 ^ below := by
      rw [Nat.shiftRight_one, Nat.mul_div_cancel_left _ Nat.two_pos]
    have start : node_idx * 2 ^ (below + 1) = 2 * node_idx * 2 ^ below := by ring
    have middle : 2 * node_idx * 2 ^ below + 2 ^ below = (2 * node_idx + 1) * 2 ^ below := by ring
    have pos := Nat.two_pow_pos below
    have small : 2 ^ (below + 1) ≤ 2 ^ L := Nat.pow_le_pow_right Nat.two_pos (by omega)
    have split (k : ℕ) := nodeCombination_succ points (view z (k * 2 ^ L)) below node_idx
    have left : 2 * node_idx < 2 ^ (lev + 1) := by omega
    have right : 2 * node_idx + 1 < 2 ^ (lev + 1) := by omega
    -- the frame of the node, and the room of the frames below it
    obtain ⟨slabs, slabsEq⟩ : ∃ slabs, slabs = walk.K * 2 ^ below := ⟨_, rfl⟩
    have frame : 6 * walk.K * 2 ^ (below + 1) = 12 * slabs := by rw [double, slabsEq]; ring
    have deeper : 6 * walk.K * 2 ^ below = 6 * slabs := by rw [slabsEq]; ring
    have own : 3 * walk.K * (2 * 2 ^ below) = 6 * slabs := by rw [slabsEq]; ring
    have two : 2 * walk.K * 2 ^ below = 2 * slabs := by rw [slabsEq]; ring
    have wide : walk.K * (2 * 2 ^ below) = 2 * slabs := by rw [slabsEq]; ring
    rw [frame] at room
    rw [fenger_interp_recurse_batch]
    simp only [here, slot, half, start, middle, own, two, wide, ← slabsEq]
    obtain ⟨fL, first, leftRun, leftPoly, leftKept⟩ := ih children left
      (view words place) words (place + 6 * slabs) (by omega)
    rw [leftRun]
    simp only [Option.bind_eq_bind, Option.bind_some]
    obtain ⟨second, leftPut, leftWords, leftOthers⟩ :=
      putWords_put first fL (by omega : place + slabs ≤ walk.size)
    rw [leftPut]
    simp only [Option.bind_some]
    obtain ⟨fR, third, rightRun, rightPoly, rightKept⟩ := ih children right
      (view second (place + slabs)) second (place + 6 * slabs) (by omega)
    rw [rightRun]
    simp only [Option.bind_some]
    obtain ⟨fourth, rightPut, rightWords, rightOthers⟩ :=
      putWords_put third fR (by omega : place + slabs + slabs ≤ walk.size)
    rw [rightPut]
    simp only [Option.bind_some]
    -- both results are in their slabs
    have leftThere {k : ℕ} (member : k < walk.K) :
        firstTerms (view fourth (place + k * 2 ^ below)) (2 ^ below) =
          nodeCombination points (view z (k * 2 ^ L)) below (2 * node_idx) := by
      have slab := Slabs.slab_le member (2 ^ below)
      refine firstTerms_eq (fun i within => ?_) fun i beyond => nodeCombination_beyond points _ below _ beyond
      rw [view, rightOthers _ (by omega), rightKept _ (by omega), Nat.add_assoc,
        leftWords _ (by omega), leftPoly k member i within]
    have rightThere {k : ℕ} (member : k < walk.K) :
        firstTerms (view fourth (place + slabs + k * 2 ^ below)) (2 ^ below) =
          nodeCombination points (view z (k * 2 ^ L)) below (2 * node_idx + 1) := by
      have slab := Slabs.slab_le member (2 ^ below)
      refine firstTerms_eq (fun i within => ?_) fun i beyond => nodeCombination_beyond points _ below _ beyond
      rw [view, Nat.add_assoc, rightWords _ (by omega), rightPoly k member i within]
    obtain ⟨last, run, both, kept⟩ := walk.multiplyBoth_products fourth
      (walk.tree.level_data (lev + 1) (2 * node_idx * (2 ^ below + 1)))
      (walk.tree.level_data (lev + 1) ((2 * node_idx + 1) * (2 ^ below + 1)))
      (by omega : place + walk.K * 2 ^ below ≤ place + 2 * slabs)
      (by omega : place + slabs + walk.K * 2 ^ below ≤ place + 2 * slabs)
      (by omega : _ ≤ place + 2 * slabs + 2 * slabs) (by omega) rfl (by omega) (by omega)
    rw [isTree.child_firstTerms children left, isTree.child_firstTerms children right] at both
    rw [run]
    simp only [Option.bind_some]
    refine ⟨_, last, rfl, fun k member i within => ?_, fun j before => ?_⟩
    · rw [double] at within ⊢
      have slab := Slabs.slab_le member (2 * 2 ^ below)
      obtain ⟨one, other⟩ := both k member i within
      rw [if_pos (by omega), ← Nat.add_assoc, ← Nat.add_assoc, one, other, leftThere member,
        rightThere member, split, coeff_add]
    · rw [kept j (by omega), rightOthers j (by omega), rightKept j (by omega), leftOthers j (by omega),
        leftKept j (by omega)]

/-- The combinations of all words. -/
theorem fenger_interp_batch_eq (out : ℕ → Gf64) (room : 6 * walk.K * 2 ^ L ≤ walk.size) :
    ∃ poly, walk.fenger_interp_batch z out = some poly ∧ ∀ k < walk.K, ∀ i < 2 ^ L,
      poly (k * 2 ^ L + i) =
        (combination (Finset.range (2 ^ L)) points (view z (k * 2 ^ L))).coeff i := by
  rw [fenger_interp_batch, isTree.num_points, isTree.num_levels, Nat.add_sub_cancel]
  split
  case isTrue one =>
    obtain rfl : L = 0 := by
      by_contra more
      exact absurd one (Nat.one_lt_two_pow more).ne'
    refine ⟨_, rfl, fun k member i within => ?_⟩
    obtain rfl : i = 0 := by omega
    rw [← nodeCombination_root, nodeCombination_zero, coeff_C_zero, pow_zero, Nat.mul_one, Nat.add_zero,
      if_pos member]
    rfl
  case isFalse =>
    obtain ⟨poly, last, run, values, -⟩ := walk.recurse_batch_combines isTree memory products z
      (Nat.zero_add L) (Nat.two_pow_pos 0) out (fun _ => 0) 0 (by omega)
    rw [Nat.zero_mul] at run
    rw [run]
    refine ⟨poly, rfl, fun k member i within => ?_⟩
    rw [values k member i within, nodeCombination_root]

end Combine

/-! ## Evaluation -/

/-- The words of the dividends are below a place. -/
def Dividends.Before (dividends : Dividends) (K place : ℕ) : Prop :=
  match dividends.f with
  | .outside _ => True
  | .scratch own => ∀ k < K, own + k * dividends.f_stride + (dividends.deg_fs k + 1) ≤ place

/-- The polynomial of a word. -/
noncomputable def Dividends.polynomial (dividends : Dividends) (words : ℕ → Gf64) (k : ℕ) : Gf64[X] :=
  firstTerms (dividends.word words k) (dividends.deg_fs k + 1)

theorem Dividends.word_congr {dividends : Dividends} {K place : ℕ} (before : dividends.Before K place)
    (words : ℕ → Gf64) {other : ℕ → Gf64} (same : ∀ j < place, other j = words j) {k i : ℕ}
    (member : k < K)
    (within : i ≤ dividends.deg_fs k) : dividends.word other k i = dividends.word words k i := by
  obtain ⟨f, f_stride, deg_fs⟩ := dividends
  cases f with
  | outside f => rfl
  | scratch own =>
    have room : own + k * f_stride + (deg_fs k + 1) ≤ place := before k member
    exact same (own + (k * f_stride + i)) (by dsimp only at within; omega)

section Division

variable (walk : BatchWalk) {dividends : Dividends} {P : ℕ → Gf64} {child_deg place : ℕ}

/-- What a shared product gives of a quotient: all of it, or nothing for a short dividend. -/
noncomputable def Dividends.quotient (dividends : Dividends) (words : ℕ → Gf64) (G : Gf64[X])
    (child_deg k : ℕ) : Gf64[X] :=
  if dividends.deg_fs k ≥ child_deg then dividends.polynomial words k / G else 0

variable {revq : ℕ} (before : dividends.Before walk.K place) (frame : place ≤ revq)
  (inside : revq + walk.K * child_deg ≤ walk.size)

include before frame inside

theorem reverseDividends_slabs {clear : Bool} (words : ℕ → Gf64) (start : ℕ → Gf64)
    (same : ∀ j < place, words j = start j)
    (cleared : clear = false → ∀ k < walk.K, dividends.deg_fs k < child_deg → ∀ i < child_deg,
      words (revq + k * child_deg + i) = 0) :
    ∃ last, walk.reverseDividends dividends child_deg revq clear words = some last ∧
      (∀ k < walk.K, ∀ i < child_deg, last (revq + k * child_deg + i) =
        if dividends.deg_fs k ≥ child_deg then dividends.word start k (dividends.deg_fs k - i) else 0) ∧
      ∀ j, j < revq ∨ revq + walk.K * child_deg ≤ j → last j = words j := by
  rw [reverseDividends]
  refine Slabs.foldlM_slabs le_rfl walk.K fun k member memory unchanged => ?_
  have slab := Slabs.slab_le member child_deg
  have room : revq + k * child_deg + child_deg ≤ walk.size := by omega
  split
  case isTrue long =>
    obtain ⟨next, put, there, others⟩ := putWords_put memory (fun i =>
      if i ≤ dividends.deg_fs k then dividends.word memory k (dividends.deg_fs k - i) else 0) room
    refine ⟨next, put, fun i within => ?_, others⟩
    rw [there i within, if_pos (by omega), Dividends.word_congr before start
      (fun j below => (unchanged j (.inl (by omega))).trans (same j below)) member (Nat.sub_le _ _)]
  case isFalse short =>
    split
    case isTrue =>
      obtain ⟨next, put, there, others⟩ := putWords_put memory (fun _ => 0) room
      exact ⟨next, put, there, others⟩
    case isFalse kept =>
      refine ⟨memory, rfl, fun i within => ?_, fun _ _ => rfl⟩
      rw [unchanged _ (.inr (by omega))]
      exact cleared (by simpa using kept) k member (by omega) i within

variable (dividends) in
omit before frame in
theorem reverseQuotients_slabs (words : ℕ → Gf64) :
    ∃ last, walk.reverseQuotients dividends child_deg revq words = some last ∧
      (∀ k < walk.K, ∀ i < child_deg, last (revq + k * child_deg + i) =
        if dividends.deg_fs k < child_deg then words (revq + k * child_deg + i)
        else if i < dividends.deg_fs k - child_deg + 1 then
          words (revq + k * child_deg + (dividends.deg_fs k - child_deg - i))
        else 0) ∧
      ∀ j, j < revq ∨ revq + walk.K * child_deg ≤ j → last j = words j := by
  rw [reverseQuotients]
  refine Slabs.foldlM_slabs le_rfl walk.K fun k member memory unchanged => ?_
  have slab := Slabs.slab_le member child_deg
  have own (i : ℕ) : memory (revq + k * child_deg + i) = words (revq + k * child_deg + i) :=
    unchanged _ (.inr (by omega))
  split
  case isTrue short => exact ⟨memory, rfl, fun i _ => own i, fun _ _ => rfl⟩
  case isFalse =>
    obtain ⟨next, put, there, others⟩ := putWords_put memory (fun i =>
      if i < dividends.deg_fs k - child_deg + 1 then
        view memory (revq + k * child_deg) (dividends.deg_fs k - child_deg + 1 - 1 - i)
      else 0) (by omega : revq + k * child_deg + child_deg ≤ walk.size)
    refine ⟨next, put, fun i within => ?_, others⟩
    rw [there i within, view, own, Nat.add_sub_cancel]

end Division

/-- The first coefficients of the reversed dividend and of the reciprocal give the quotient. -/
theorem quotient_coeff {f inv P : ℕ → Gf64} {deg child_deg i : ℕ} (lead : P child_deg ≠ 0)
    (long : deg ≥ child_deg) (bound : deg < 2 * child_deg)
    (known : SameBelow child_deg (reflect child_deg (firstTerms P (child_deg + 1)) *
      firstTerms inv child_deg) 1) (within : i ≤ deg - child_deg) :
    (firstTerms inv child_deg * firstTerms (fun i => f (deg - i)) child_deg).coeff
        (deg - child_deg - i) =
      (firstTerms f (deg + 1) / firstTerms P (child_deg + 1)).coeff i := by
  have cut : SameBelow (deg - child_deg + 1) (firstTerms (fun i => f (deg - i)) child_deg)
      (reflect deg (firstTerms f (deg + 1))) := by
    rw [← firstTerms_reflect]
    exact (firstTerms_sameBelow _ (by omega)).mono (by omega)
  rw [mul_comm]
  exact (div_coeff_of_reciprocal (firstTerms_natDegree_le f deg) (firstTerms_degree_eq lead) long
    (known.mono (by omega)) cut within).symm

section Shared

variable (walk : BatchWalk) {dividends : Dividends} {inv P : ℕ → Gf64} {place r revq below : ℕ}
  {start : ℕ → Gf64} (before : dividends.Before walk.K place) (first : place ≤ r)
  (apart : r + walk.K * (2 * 2 ^ below) ≤ revq) (inside : revq + walk.K * 2 ^ below ≤ walk.size)
  (available : 4 * (2 * 2 ^ below) ≤ walk.room) (small : 2 * 2 ^ below ≤ GF64_HQC_MAX_LM_N)
  (lead : P (2 ^ below) ≠ 0) (degrees : ∀ k < walk.K, dividends.deg_fs k < 2 * 2 ^ below)
  (known : SameBelow (2 ^ below) (reflect (2 ^ below) (firstTerms P (2 ^ below + 1)) *
    firstTerms inv (2 ^ below)) 1)

include before first apart inside available small lead degrees known

theorem divideShared_products (clear : Bool) (words : ℕ → Gf64) (same : ∀ j < place, words j = start j)
    (cleared : clear = false → ∀ k < walk.K, dividends.deg_fs k < 2 ^ below → ∀ i < 2 ^ below,
      words (revq + k * 2 ^ below + i) = 0) :
    ∃ last, walk.divideShared dividends inv P (2 ^ below) revq r (2 * 2 ^ below) clear words = some last ∧
      (∀ k < walk.K, ∀ i < 2 ^ below, last (r + k * (2 * 2 ^ below) + i) =
        (firstTerms P (2 ^ below + 1) * dividends.quotient start (firstTerms P (2 ^ below + 1))
          (2 ^ below) k).coeff i) ∧
      (∀ k < walk.K, dividends.deg_fs k < 2 ^ below → ∀ i < 2 ^ below,
        last (revq + k * 2 ^ below + i) = 0) ∧
      ∀ j, (j < r ∨ r + walk.K * (2 * 2 ^ below) ≤ j) → j < revq → last j = words j := by
  have pos := Nat.two_pow_pos below
  have double : 2 ^ (below + 1) = 2 * 2 ^ below := by ring
  have length (len : ℕ) (le : len ≤ 2 ^ below + 1) :
      productLength len (2 ^ below) (2 ^ below) ≤ 2 * 2 ^ below :=
    double ▸ productLength_le_pow (by omega) (by omega)
  rw [divideShared]
  obtain ⟨reversed, run, slabs, others⟩ := walk.reverseDividends_slabs before (first.trans (by omega))
    inside words start same cleared
  obtain ⟨products, runProducts, slabsProducts, othersProducts⟩ := Interleaved.fenger_batch_shared_mul_eq
    reversed inv walk.K revq (le_refl (2 ^ below)) inside pos pos pos (by omega)
    walk.kernels _ ((Nat.mul_le_mul_left 4 (length (2 ^ below) (by omega)))) available
    fun k _ => .inl le_rfl
  obtain ⟨quotients, runQuotients, slabsQuotients, othersQuotients⟩ :=
    walk.reverseQuotients_slabs dividends inside products
  obtain ⟨last, runLast, slabsLast, othersLast⟩ := Interleaved.fenger_batch_shared_mul_eq quotients P walk.K
    revq (by omega : 2 ^ below ≤ 2 * 2 ^ below) (by omega : r + walk.K * (2 * 2 ^ below) ≤ walk.size)
    (Nat.succ_pos _) pos pos (by omega) walk.kernels _
    ((Nat.mul_le_mul_left 4 (length (2 ^ below + 1) le_rfl))) available fun k member => .inl (by
      have slab := Slabs.slab_le member (2 * 2 ^ below)
      omega)
  simp only [Option.bind_eq_bind]
  rw [run, Option.bind_some, multiply, runProducts, Option.bind_some, runQuotients, Option.bind_some]
  -- a short dividend has zeros all the way
  have short {k : ℕ} (member : k < walk.K) (few : dividends.deg_fs k < 2 ^ below) :
      firstTerms (view reversed (revq + k * 2 ^ below)) (2 ^ below) = 0 :=
    firstTerms_eq (fun i within => by rw [view, slabs k member i within, if_neg (by omega), coeff_zero])
      fun _ _ => coeff_zero _
  have zeros {k : ℕ} (member : k < walk.K) (few : dividends.deg_fs k < 2 ^ below) {i : ℕ}
      (within : i < 2 ^ below) : quotients (revq + k * 2 ^ below + i) = 0 := by
    rw [slabsQuotients k member i within, if_pos few, slabsProducts k member i within,
      short member few, mul_zero, coeff_zero]
  have quotient {k : ℕ} (member : k < walk.K) :
      firstTerms (view quotients (revq + k * 2 ^ below)) (2 ^ below) =
        dividends.quotient start (firstTerms P (2 ^ below + 1)) (2 ^ below) k := by
    rw [Dividends.quotient]
    split
    case isFalse few =>
      exact firstTerms_eq (fun i within => by
        rw [view, zeros member (not_le.mp few) within, coeff_zero]) fun _ _ => coeff_zero _
    case isTrue long =>
      have bound := degrees k member
      have dividend : firstTerms (view reversed (revq + k * 2 ^ below)) (2 ^ below) =
          firstTerms (fun i => dividends.word start k (dividends.deg_fs k - i)) (2 ^ below) :=
        firstTerms_congr fun i within => by rw [view, slabs k member i within, if_pos long]
      refine firstTerms_eq (fun i within => ?_) fun i beyond => div_coeff_beyond lead (by omega)
      rw [view, slabsQuotients k member i within, if_neg (by omega)]
      split
      case isTrue there =>
        rw [slabsProducts k member _ (by omega), dividend]
        exact quotient_coeff lead long bound known (by omega)
      case isFalse gone => exact (div_coeff_beyond lead (by omega)).symm
  refine ⟨last, runLast, fun k member i within => ?_, fun k member few i within => ?_,
    fun j outside below => ?_⟩
  · rw [slabsLast k member i within, quotient member]
  · have part := Slabs.slab_le member (2 ^ below)
    rw [othersLast _ (by omega), zeros member few within]
  · rw [othersLast j outside, othersQuotients j (.inl below), othersProducts j (.inl below),
      others j (.inl below)]

end Shared

/-- The slabs of the remainders, as far as the dividends reach. -/
def Remaining (dividends : Dividends) (start : ℕ → Gf64) (K : ℕ) (G : Gf64[X]) (child_deg r : ℕ)
    (last : ℕ → Gf64) : Prop :=
  ∀ k < K, ∀ i < child_deg, i ≤ dividends.deg_fs k →
    last (r + k * (2 * child_deg) + i) = (dividends.polynomial start k % G).coeff i

/-- The dividend less the product with the quotient. -/
theorem remainder_coeff {dividends : Dividends} {start P : ℕ → Gf64} {child_deg k i : ℕ}
    (lead : P child_deg ≠ 0) (within : i ≤ dividends.deg_fs k) :
    (if dividends.deg_fs k ≥ child_deg then
      dividends.word start k i + (firstTerms P (child_deg + 1) *
        dividends.quotient start (firstTerms P (child_deg + 1)) child_deg k).coeff i
    else dividends.word start k i) =
      (dividends.polynomial start k % firstTerms P (child_deg + 1)).coeff i := by
  have own : (dividends.polynomial start k).coeff i = dividends.word start k i := by
    rw [Dividends.polynomial, firstTerms_coeff, if_pos (by omega)]
  split
  case isTrue long =>
    have split := congrArg (coeff · i)
      (EuclideanDomain.div_add_mod (dividends.polynomial start k) (firstTerms P (child_deg + 1)))
    simp only [coeff_add] at split
    rw [Dividends.quotient, if_pos long, ← own, ← split, add_right_comm, CharTwo.add_self_eq_zero,
      zero_add]
  case isFalse short =>
    have smaller : (dividends.polynomial start k).degree < (firstTerms P (child_deg + 1)).degree := by
      rw [firstTerms_degree_eq lead]
      exact (firstTerms_degree_lt _ _).trans_le (Nat.cast_le.mpr (by omega))
    rw [(mod_eq_self_iff (divisor_nonzero lead)).mpr smaller, own]

section Both

variable (walk : BatchWalk) {dividends : Dividends} {P_L P_R : ℕ → Gf64} {place r_L r_R revq below : ℕ}
  {start : ℕ → Gf64} (before : dividends.Before walk.K place) (first : place ≤ r_L)
  (second : r_L + walk.K * (2 * 2 ^ below) ≤ r_R) (apart : r_R + walk.K * (2 * 2 ^ below) ≤ revq)
  (leadL : P_L (2 ^ below) ≠ 0) (leadR : P_R (2 ^ below) ≠ 0)

include before first second apart leadL leadR

theorem takeRemainders_remaining (inside : revq ≤ walk.size) (words : ℕ → Gf64)
    (same : ∀ j < place, words j = start j)
    (left : ∀ k < walk.K, ∀ i < 2 ^ below, words (r_L + k * (2 * 2 ^ below) + i) =
      (firstTerms P_L (2 ^ below + 1) *
        dividends.quotient start (firstTerms P_L (2 ^ below + 1)) (2 ^ below) k).coeff i)
    (right : ∀ k < walk.K, ∀ i < 2 ^ below, words (r_R + k * (2 * 2 ^ below) + i) =
      (firstTerms P_R (2 ^ below + 1) *
        dividends.quotient start (firstTerms P_R (2 ^ below + 1)) (2 ^ below) k).coeff i) :
    ∃ last, walk.takeRemainders dividends (2 ^ below) r_L r_R (2 * 2 ^ below) words = some last ∧
      (Remaining dividends start walk.K (firstTerms P_L (2 ^ below + 1)) (2 ^ below) r_L last ∧
        Remaining dividends start walk.K (firstTerms P_R (2 ^ below + 1)) (2 ^ below) r_R last) ∧
      ∀ j < place, last j = words j := by
  rw [takeRemainders]
  refine (Slabs.foldlM_regions
    (fun k j => r_L + k * (2 * 2 ^ below) ≤ j ∧ j < r_L + k * (2 * 2 ^ below) + 2 ^ below ∨
      r_R + k * (2 * 2 ^ below) ≤ j ∧ j < r_R + k * (2 * 2 ^ below) + 2 ^ below)
    (fun k memory => ∀ i < 2 ^ below, i ≤ dividends.deg_fs k →
      memory (r_L + k * (2 * 2 ^ below) + i) =
        (dividends.polynomial start k % firstTerms P_L (2 ^ below + 1)).coeff i ∧
      memory (r_R + k * (2 * 2 ^ below) + i) =
        (dividends.polynomial start k % firstTerms P_R (2 ^ below + 1)).coeff i)
    walk.K ?each ?lasting).imp fun last done =>
      ⟨done.1, ⟨fun k member i within reached => (done.2.1 k member i within reached).1,
        fun k member i within reached => (done.2.1 k member i within reached).2⟩,
        fun j under => done.2.2 j fun k member => by omega⟩
  case each =>
    intro k member memory unchanged
    have slab := Slabs.slab_le member (2 * 2 ^ below)
    have kept {j : ℕ} (under : j < place) : memory j = start j :=
      (unchanged j fun i earlier => by omega).trans (same j under)
    have own (r : ℕ) (there : r = r_L ∨ r = r_R) {i : ℕ} (within : i < 2 ^ below) :
        memory (r + k * (2 * 2 ^ below) + i) = words (r + k * (2 * 2 ^ below) + i) :=
      unchanged _ fun j earlier => by
        have order := Slabs.slab_le earlier (2 * 2 ^ below)
        omega
    obtain ⟨middle, put, there, others⟩ := putWords_put memory (fun i =>
        if dividends.deg_fs k ≥ 2 ^ below then
          dividends.word memory k i + memory (r_L + k * (2 * 2 ^ below) + i)
        else dividends.word memory k i)
      (by omega : r_L + k * (2 * 2 ^ below) + 2 ^ below ≤ walk.size)
    simp only [Option.bind_eq_bind]
    rw [put, Option.bind_some]
    obtain ⟨next, putNext, thereNext, othersNext⟩ := putWords_put middle (fun i =>
        if dividends.deg_fs k ≥ 2 ^ below then
          dividends.word middle k i + middle (r_R + k * (2 * 2 ^ below) + i)
        else dividends.word middle k i)
      (by omega : r_R + k * (2 * 2 ^ below) + 2 ^ below ≤ walk.size)
    refine ⟨next, putNext, fun i within reached => ⟨?_, ?_⟩, fun j outside => ?_⟩
    · rw [othersNext _ (by omega), there i within, own r_L (.inl rfl) within, left k member i within,
        Dividends.word_congr before start (fun j under => kept under) member reached]
      exact remainder_coeff leadL reached
    · rw [thereNext i within, others _ (by omega), own r_R (.inr rfl) within, right k member i within,
        Dividends.word_congr before start
          (fun j under => (others j (by omega)).trans (kept under)) member reached]
      exact remainder_coeff leadR reached
    · rw [othersNext j (by omega), others j (by omega)]
  case lasting =>
    intro i k earlier member memory next others written w within reached
    have order := Slabs.slab_le earlier (2 * 2 ^ below)
    have slab := Slabs.slab_le member (2 * 2 ^ below)
    exact ⟨(others _ (by omega)).trans (written w within reached).1,
      (others _ (by omega)).trans (written w within reached).2⟩

theorem divideEach_remaining (arena : Arena) {q2 : ℕ} (third : q2 = revq + walk.K * 2 ^ below)
    (inside : q2 + walk.K * 2 ^ below + 2 ^ below ≤ walk.size) (fits : 2 * 2 ^ below ≤ SIZE_MAX / 3)
    (degrees : ∀ k < walk.K, dividends.deg_fs k < 2 * 2 ^ below)
    (room : HasRoom (some arena) (16 * 2 ^ below)) (words : ℕ → Gf64)
    (same : ∀ j < place, words j = start j) :
    ∃ last, walk.divideEach arena dividends P_L P_R (2 ^ below) r_L r_R revq q2 (2 * 2 ^ below) words =
        some last ∧
      (Remaining dividends start walk.K (firstTerms P_L (2 ^ below + 1)) (2 ^ below) r_L last ∧
        Remaining dividends start walk.K (firstTerms P_R (2 ^ below + 1)) (2 ^ below) r_R last) ∧
      ∀ j < place, last j = words j := by
  rw [divideEach]
  refine (Slabs.foldlM_regions
    (fun k j => r_L + k * (2 * 2 ^ below) ≤ j ∧ j < r_L + k * (2 * 2 ^ below) + 2 * 2 ^ below ∨
      r_R + k * (2 * 2 ^ below) ≤ j ∧ j < r_R + k * (2 * 2 ^ below) + 2 * 2 ^ below ∨ revq ≤ j)
    (fun k memory => ∀ i < 2 ^ below,
      memory (r_L + k * (2 * 2 ^ below) + i) =
        (dividends.polynomial start k % firstTerms P_L (2 ^ below + 1)).coeff i ∧
      memory (r_R + k * (2 * 2 ^ below) + i) =
        (dividends.polynomial start k % firstTerms P_R (2 ^ below + 1)).coeff i)
    walk.K ?each ?lasting).imp fun last done =>
      ⟨done.1, ⟨fun k member i within _ => (done.2.1 k member i within).1,
        fun k member i within _ => (done.2.1 k member i within).2⟩,
        fun j under => done.2.2 j fun k member => by omega⟩
  case each =>
    intro k member memory unchanged
    have slab := Slabs.slab_le member (2 * 2 ^ below)
    have part := Slabs.slab_le member (2 ^ below)
    have degree := degrees k member
    have enough : HasRoom (some arena) (divmodWords (dividends.deg_fs k) (2 ^ below)) :=
      room.mono (divmodWords_le degree)
    have kept {j : ℕ} (under : j < place) : memory j = start j :=
      (unchanged j fun i earlier => by omega).trans (same j under)
    have dividend {other : ℕ → Gf64} (agree : ∀ j < place, other j = start j) :
        firstTerms (dividends.word other k) (dividends.deg_fs k + 1) = dividends.polynomial start k :=
      firstTerms_congr fun i reached =>
        Dividends.word_congr before start agree member (Nat.lt_succ_iff.mp reached)
    obtain ⟨middle, run, there, others⟩ := divideInto_remainder walk.kernels memory
      (dividends.word memory k) (revq + k * 2 ^ below) (r_L + k * (2 * 2 ^ below)) (2 * 2 ^ below) leadL
      (by omega) enough (by omega) (by omega) (by omega) (by omega) (by omega : _ ≤ walk.size)
    have between {j : ℕ} (under : j < place) : middle j = start j :=
      (others j (by omega) (by omega)).trans (kept under)
    have quotient : revq ≤ (if walk.K = 1 then revq else q2 + k * 2 ^ below) ∧
        (if walk.K = 1 then revq else q2 + k * 2 ^ below) + 2 * 2 ^ below ≤ walk.size := by
      split <;> omega
    obtain ⟨next, runNext, thereNext, othersNext⟩ := divideInto_remainder walk.kernels middle
      (dividends.word middle k) (if walk.K = 1 then revq else q2 + k * 2 ^ below)
      (r_R + k * (2 * 2 ^ below)) (2 * 2 ^ below) leadR (by omega) enough (by omega) (by omega) (by omega)
      (by omega) quotient.2
    simp only [Option.bind_eq_bind]
    rw [run, Option.bind_some]
    refine ⟨next, runNext, fun i within => ⟨?_, ?_⟩, fun j outside => ?_⟩
    · rw [othersNext _ (by omega) (by omega), there i within, dividend fun j under => kept under]
    · rw [thereNext i within, dividend fun j under => between under]
    · rw [othersNext j (by omega) (by omega), others j (by omega) (by omega)]
  case lasting =>
    intro i k earlier member memory next others written w within
    have order := Slabs.slab_le earlier (2 * 2 ^ below)
    have slab := Slabs.slab_le member (2 * 2 ^ below)
    exact ⟨(others _ (by omega)).trans (written w within).1,
      (others _ (by omega)).trans (written w within).2⟩

/-- Shared or word by word, the remainders by both children are in their slabs. -/
theorem divideBoth_remaining {inv_L inv_R : ℕ → Gf64} (arena : Arena) {q2 : ℕ}
    (third : q2 = revq + walk.K * 2 ^ below)
    (inside : q2 + walk.K * 2 ^ below + 2 ^ below ≤ walk.size) (fits : 2 * 2 ^ below ≤ SIZE_MAX / 3)
    (available : 4 * (2 * 2 ^ below) ≤ walk.room)
    (degrees : ∀ k < walk.K, dividends.deg_fs k < 2 * 2 ^ below)
    (room : HasRoom (some arena) (16 * 2 ^ below))
    (knownL : 1 < 2 ^ below → SameBelow (2 ^ below)
      (reflect (2 ^ below) (firstTerms P_L (2 ^ below + 1)) * firstTerms inv_L (2 ^ below)) 1)
    (knownR : 1 < 2 ^ below → SameBelow (2 ^ below)
      (reflect (2 ^ below) (firstTerms P_R (2 ^ below + 1)) * firstTerms inv_R (2 ^ below)) 1)
    (words : ℕ → Gf64) (same : ∀ j < place, words j = start j) :
    ∃ last, walk.divideBoth arena dividends inv_L inv_R P_L P_R (2 ^ below) r_L r_R revq q2
        (2 * 2 ^ below) words = some last ∧
      (Remaining dividends start walk.K (firstTerms P_L (2 ^ below + 1)) (2 ^ below) r_L last ∧
        Remaining dividends start walk.K (firstTerms P_R (2 ^ below + 1)) (2 ^ below) r_R last) ∧
      ∀ j < place, last j = words j := by
  rw [divideBoth]
  split
  case isFalse =>
    exact walk.divideEach_remaining before first second apart leadL leadR arena third inside fits degrees
      room words same
  case isTrue gate =>
    have eligible := ((Bool.and_eq_true _ _).mp gate).2
    obtain ⟨-, -, -, small⟩ := eligible_fits eligible
    have large : 1 < 2 ^ below := by
      have holds := (of_decide_eq_true eligible).2.1
      have least : 1 < GF64_HQC_FFT_MIN := by decide
      omega
    obtain ⟨middle, run, left, cleared, kept⟩ := walk.divideShared_products before first
      (by omega : r_L + walk.K * (2 * 2 ^ below) ≤ revq) (by omega) available (by omega) leadL degrees
      (knownL large) true words same fun impossible => nomatch impossible
    have between {j : ℕ} (under : j < place) : middle j = words j := kept j (by omega) (by omega)
    obtain ⟨next, runNext, right, -, keptNext⟩ := walk.divideShared_products before
      (by omega : place ≤ r_R) apart (by omega) available (by omega) leadR degrees (knownR large) false
      middle (fun j under => (between under).trans (same j under)) fun _ => cleared
    have after {j : ℕ} (under : j < place) : next j = words j :=
      (keptNext j (by omega) (by omega)).trans (between under)
    obtain ⟨last, runLast, remaining, keptLast⟩ := walk.takeRemainders_remaining before first second apart
      leadL leadR (by omega) next (fun j under => (after under).trans (same j under))
      (fun k member i within => by
        have slab := Slabs.slab_le member (2 * 2 ^ below)
        rw [keptNext _ (by omega) (by omega), left k member i within]) right
    simp only [Option.bind_eq_bind]
    rw [run, Option.bind_some, runNext, Option.bind_some]
    exact ⟨last, runLast, remaining, fun j under => (keptLast j under).trans (after under)⟩

end Both

/-- The degree that is found covers what is left. -/
theorem degreeLeft_covers (slab : ℕ → Gf64) {rest : Gf64[X]} {child_deg deg : ℕ}
    (pos : 0 < child_deg) (small : rest.degree < (child_deg : ℕ)) (short : rest.natDegree ≤ deg)
    (there : ∀ i < child_deg, i ≤ deg → slab i = rest.coeff i) :
    degreeLeft slab child_deg deg < child_deg ∧
      firstTerms slab (degreeLeft slab child_deg deg + 1) = rest := by
  rw [degreeLeft]
  split
  case isTrue few =>
    exact ⟨few, firstTerms_eq (fun i within => there i (by omega) (by omega)) fun i beyond =>
      coeff_eq_zero_of_natDegree_lt (by omega)⟩
  case isFalse many =>
    have found := highestSet_lt slab pos
    refine ⟨found, firstTerms_eq (fun i within => there i (by omega) (by omega)) fun i beyond => ?_⟩
    rcases Nat.lt_or_ge i child_deg with inside | outside
    · rw [← there i inside (by omega)]
      exact highestSet_above slab inside (by omega)
    · exact coeff_eq_zero_of_degree_lt (small.trans_le (Nat.cast_le.mpr outside))

/-- The reciprocals of all nodes that have any. -/
def Pooled (recip_pool : ℕ → Gf64) (points : ℕ → Gf64) (L : ℕ) : Prop :=
  ∀ lev below, lev + 1 + below = L → 1 < 2 ^ below → ∀ i < 2 ^ (lev + 1), SameBelow (2 ^ below)
    (reflect (2 ^ below) (nodePolynomial points below i) *
      firstTerms (fenger_recip_at recip_pool (2 ^ L) (lev + 1) i) (2 ^ below)) 1

section Evaluate

variable (walk : BatchWalk) {points : ℕ → Gf64} {L : ℕ} (isTree : IsTree walk.tree points L)
  (memory : 8 * 2 ^ L ≤ SIZE_MAX / 8) (products : 4 * 2 ^ L ≤ walk.room) {arena : Arena}
  (space : HasRoom (some arena) (8 * 2 ^ L)) {recip_pool : ℕ → Gf64}
  (pooled : Pooled recip_pool points L) (polynomial : ℕ → Gf64[X])

include isTree memory products space pooled

/-- The walk below any node ends, and has found the values of every word at its leaves. -/
theorem recurse_batch_evaluates {lev below : ℕ} (level : lev + below = L) (dividends : Dividends)
    {node_idx : ℕ} (node : node_idx < 2 ^ lev) (out words : ℕ → Gf64) (place : ℕ)
    (before : dividends.Before walk.K place) (degrees : ∀ k < walk.K, dividends.deg_fs k < 2 ^ below)
    (room : place + (6 * walk.K + 2) * 2 ^ below ≤ walk.size)
    (congruent : ∀ k < walk.K, nodePolynomial points below node_idx ∣
      polynomial k - dividends.polynomial words k) :
    ∃ values last, walk.fenger_eval_recurse_batch recip_pool (2 ^ L) arena below dividends node_idx out
        words place = some (values, last) ∧
      (∀ k < walk.K, ∀ i < 2 ^ L, values (k * 2 ^ L + i) =
        if node_idx * 2 ^ below ≤ i ∧ i < (node_idx + 1) * 2 ^ below then
          (polynomial k).eval (points i)
        else out (k * 2 ^ L + i)) ∧
      ∀ j < place, last j = words j := by
  have addresses : SIZE_MAX / 8 ≤ SIZE_MAX / 3 := by decide
  have bytes : SIZE_MAX / 8 < SIZE_MAX := by decide
  induction below generalizing lev dividends node_idx out words place with
  | zero =>
    obtain rfl : lev = L := by omega
    refine ⟨_, words, rfl, fun k member i within => ?_, fun _ _ => rfl⟩
    rw [isTree.leaf node, isTree.num_points, Slabs.foldl_update_slabs _ _ node _ _ _ within, pow_zero,
      Nat.mul_one, Nat.mul_one]
    by_cases here : i = node_idx
    · have degree : dividends.deg_fs k = 0 := by
        have small := degrees k member
        rw [pow_zero] at small
        omega
      rw [if_pos ⟨member, here⟩, if_pos degree, if_pos (by omega), here, leaf_value (congruent k member),
        Dividends.polynomial, degree, firstTerms, Finset.sum_range_one, pow_zero, mul_one, eval_C]
    · rw [if_neg fun both => here both.2, if_neg (by omega)]
  | succ below ih =>
    have children : lev + 1 + below = L := by omega
    obtain ⟨here, slot⟩ := isTree.frame level
    have double : 2 ^ (below + 1) = 2 * 2 ^ below := by ring
    have twice : 2 ^ (lev + 1) = 2 * 2 ^ lev := by ring
    have pos := Nat.two_pow_pos below
    have small : 2 ^ (below + 1) ≤ 2 ^ L := Nat.pow_le_pow_right Nat.two_pos (by omega)
    have left : 2 * node_idx < 2 ^ (lev + 1) := by omega
    have right : 2 * node_idx + 1 < 2 ^ (lev + 1) := by omega
    have split := nodePolynomial_succ points below node_idx
    -- the frame of the node, and the room of the frames below it
    obtain ⟨slabs, slabsEq⟩ : ∃ slabs, slabs = walk.K * 2 ^ below := ⟨_, rfl⟩
    have frame : (6 * walk.K + 2) * 2 ^ (below + 1) = 12 * slabs + 4 * 2 ^ below := by
      rw [double, slabsEq]
      ring
    have deeper : (6 * walk.K + 2) * 2 ^ below = 6 * slabs + 2 * 2 ^ below := by rw [slabsEq]; ring
    have own : 2 * walk.K * (2 * 2 ^ below) = 4 * slabs := by rw [slabsEq]; ring
    have rest : (2 * walk.K + 2) * 2 ^ below = 2 * slabs + 2 * 2 ^ below := by rw [slabsEq]; ring
    have wide : walk.K * (2 * 2 ^ below) = 2 * slabs := by rw [slabsEq]; ring
    rw [frame] at room
    rw [double] at degrees
    rw [fenger_eval_recurse_batch]
    simp only [here, slot, isTree.level_degs children, own, rest, wide, ← slabsEq]
    have reciprocal {i : ℕ} (inside : i < 2 ^ (lev + 1)) (large : 1 < 2 ^ below) :
        SameBelow (2 ^ below) (reflect (2 ^ below)
          (firstTerms (walk.tree.level_data (lev + 1) (i * (2 ^ below + 1))) (2 ^ below + 1)) *
            firstTerms (fenger_recip_at recip_pool (2 ^ L) (lev + 1) i) (2 ^ below)) 1 := by
      rw [isTree.child_firstTerms children inside]
      exact pooled lev below children large i inside
    obtain ⟨divided, run, ⟨leftThere, rightThere⟩, kept⟩ := walk.divideBoth_remaining
      before (le_refl place) (by omega : place + walk.K * (2 * 2 ^ below) ≤ place + 2 * slabs)
      (by omega : _ ≤ place + 4 * slabs) (isTree.child_lead children left)
      (isTree.child_lead children right) arena (by omega : place + 4 * slabs + slabs = _) (by omega)
      (by omega) (by omega) degrees (space.mono (by omega)) (reciprocal left) (reciprocal right) words
      fun _ _ => rfl
    rw [run]
    simp only [Option.bind_eq_bind, Option.bind_some]
    rw [isTree.child_firstTerms children left] at leftThere
    rw [isTree.child_firstTerms children right] at rightThere
    -- a remainder in its slab, with the degree that is found for it
    have found {r i : ℕ} {memory : ℕ → Gf64}
        (there : Remaining dividends words walk.K (nodePolynomial points below i) (2 ^ below) r divided)
        (same : ∀ k < walk.K, ∀ i < 2 ^ below,
          memory (r + k * (2 * 2 ^ below) + i) = divided (r + k * (2 * 2 ^ below) + i))
        {k : ℕ} (member : k < walk.K) :
        degreeLeft (view divided (r + k * (2 * 2 ^ below))) (2 ^ below) (dividends.deg_fs k) < 2 ^ below ∧
          firstTerms (view (view memory r) (k * (2 * 2 ^ below)))
            (degreeLeft (view divided (r + k * (2 * 2 ^ below))) (2 ^ below) (dividends.deg_fs k) + 1) =
              dividends.polynomial words k % nodePolynomial points below i := by
      have nonzero := (nodePolynomial_monic points below i).ne_zero
      have smaller := degree_mod_lt (dividends.polynomial words k) nonzero
      rw [degree_eq_natDegree nonzero, nodePolynomial_degree] at smaller
      have covers := degreeLeft_covers (view divided (r + k * (2 * 2 ^ below))) pos smaller
        ((modByMonic_eq_mod (dividends.polynomial words k) (nodePolynomial_monic points below i) ▸
          natDegree_modByMonic_le_left).trans (firstTerms_natDegree_le _ _)) (there k member)
      refine ⟨covers.1, (firstTerms_congr fun i reached => ?_).trans covers.2⟩
      have within := covers.1
      rw [view, view, view, ← Nat.add_assoc, same k member i (by omega)]
    obtain ⟨values, middle, leftRun, leftValues, leftKept⟩ := ih children
      ⟨.scratch place, 2 * 2 ^ below, fun k =>
        degreeLeft (view divided (place + k * (2 * 2 ^ below))) (2 ^ below) (dividends.deg_fs k)⟩ left out
      divided (place + (4 * slabs + (2 * slabs + 2 * 2 ^ below)))
      (fun k member => by
        have slab := Slabs.slab_le member (2 * 2 ^ below)
        have degree := (found leftThere (fun _ _ _ _ => rfl) member).1
        dsimp only
        omega)
      (fun k member => (found leftThere (fun _ _ _ _ => rfl) member).1) (by omega)
      fun k member => by
        rw [Dividends.polynomial, Dividends.word, Operand.read,
          (found leftThere (fun _ _ _ _ => rfl) member).2]
        exact dvd_sub_mod (congruent k member) (split ▸ dvd_mul_right _ _)
    rw [leftRun]
    simp only [Option.bind_some]
    -- the right remainders have outlasted the left subtree
    have outlasted : ∀ k < walk.K, ∀ i < 2 ^ below,
        middle (place + 2 * slabs + k * (2 * 2 ^ below) + i) =
          divided (place + 2 * slabs + k * (2 * 2 ^ below) + i) := fun k member i within => by
      have slab := Slabs.slab_le member (2 * 2 ^ below)
      exact leftKept _ (by omega)
    obtain ⟨last, final, rightRun, rightValues, rightKept⟩ := ih children
      ⟨.scratch (place + 2 * slabs), 2 * 2 ^ below, fun k =>
        degreeLeft (view divided (place + 2 * slabs + k * (2 * 2 ^ below))) (2 ^ below)
          (dividends.deg_fs k)⟩ right values middle (place + (4 * slabs + (2 * slabs + 2 * 2 ^ below)))
      (fun k member => by
        have slab := Slabs.slab_le member (2 * 2 ^ below)
        have degree := (found rightThere outlasted member).1
        dsimp only
        omega)
      (fun k member => (found rightThere outlasted member).1) (by omega)
      fun k member => by
        rw [Dividends.polynomial, Dividends.word, Operand.read, (found rightThere outlasted member).2]
        exact dvd_sub_mod (congruent k member) (split ▸ dvd_mul_left _ _)
    refine ⟨last, final, rightRun, fun k member i within => ?_, fun j under => ?_⟩
    · have start : node_idx * 2 ^ (below + 1) = 2 * node_idx * 2 ^ below := by ring
      have middle : (2 * node_idx + 1) * 2 ^ below = 2 * node_idx * 2 ^ below + 2 ^ below := by ring
      have stop : (node_idx + 1) * 2 ^ (below + 1) = (2 * node_idx + 1 + 1) * 2 ^ below := by ring
      have final : (2 * node_idx + 1 + 1) * 2 ^ below =
        2 * node_idx * 2 ^ below + 2 ^ below + 2 ^ below := by ring
      rw [rightValues k member i within, leftValues k member i within, start, stop, middle, final]
      by_cases upper : 2 * node_idx * 2 ^ below + 2 ^ below ≤ i
      · by_cases inside : i < 2 * node_idx * 2 ^ below + 2 ^ below + 2 ^ below
        · rw [if_pos ⟨upper, inside⟩, if_pos (by omega)]
        · rw [if_neg (by omega), if_neg (by omega), if_neg (by omega)]
      · rw [if_neg (by omega)]
        exact if_congr (by omega) rfl rfl
    · rw [rightKept j (by omega), leftKept j (by omega), kept j under]

end Evaluate

end BatchWalk

end Par3
