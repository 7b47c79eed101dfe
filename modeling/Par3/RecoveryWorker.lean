import Par3.EngineMemory

/-!
# A worker of the engine

A worker gets a range: some outputs, some inputs, and the part of the words of each block. It
clears its outputs unless it accumulates, and adds to each output all its inputs with their
coefficients, for few outputs one input after the other, otherwise in groups of outputs and
inputs, which it may cut further into tiles that fit the cache. Each way adds the same sum, and
none touches a word outside the outputs.
-/

namespace Par3

open Interleaving

/-- What a worker works on. The inputs and the coefficients are given by their positions in the
arrays. -/
structure WorkerRange where
  out_start : Address
  num_out : ℕ
  total_num_out : ℕ
  in_start : ℕ
  num_in : ℕ
  coeff_row_start : ℕ
  coeff_stride : ℕ
  block_size64 : ℕ
  block_stride64 : ℕ
  tile_size : ℕ
  accumulate : Bool

namespace WorkerRange

variable (range : WorkerRange) (inputs coeff : Words) (K G : ℕ)

/-- `block_stride64 ? block_stride64 : slice_len` -/
def stride_len : ℕ :=
  if range.block_stride64 = 0 then range.block_size64 else range.block_stride64

/-- `out_start + k * stride_len` -/
def out (k : ℕ) : Address := range.out_start.plus (k * range.stride_len)

/-- `in + j * stride_len` -/
def inBlock (j : ℕ) : Words := fun i => inputs (range.in_start + j * range.stride_len + i)

/-- The outputs from one on are set to zero, unless they are added to. -/
def clear (k_start count : ℕ) : List (Step Address Gf64) :=
  if range.accumulate then []
  else (List.range count).flatMap fun k => [memset (range.out (k_start + k)) range.block_size64]

/-- Few outputs: all of them take one input after the other. -/
def smallRecovery : List (Step Address Gf64) :=
  range.clear 0 range.num_out ++
    if range.num_out = 1 then
      (List.range range.num_in).flatMap fun j =>
        let c := coeff (range.coeff_row_start + j)
        if c ≠ 0 then
          [muladd range.out_start (range.inBlock inputs j) c range.block_size64]
        else []
    else
      (List.range range.num_in).flatMap fun j =>
        [fusedMuladd range.out (range.inBlock inputs j)
          (fun k => coeff (range.coeff_row_start + (k * range.coeff_stride + j)))
          range.block_size64 range.num_out]

/-- One group of inputs into one group of outputs. -/
def group (k_start Kk j Gk : ℕ) : List (Step Address Gf64) :=
  [blockMuladd (fun k => range.out (k_start + k)) Kk (fun g => range.inBlock inputs (j + g)) Gk
    (fun index => coeff (range.coeff_row_start + k_start * range.coeff_stride + j + index))
    range.coeff_stride range.block_size64]

/-- All inputs into one group of outputs. -/
def process_out (k_start : ℕ) : List (Step Address Gf64) :=
  let Kk := min K (range.num_out - k_start)
  range.clear k_start Kk ++
    if range.tile_size = 0 ∨ range.num_in ≤ range.tile_size then
      (strided 0 range.num_in G).flatMap fun j =>
        range.group inputs coeff k_start Kk j (min G (range.num_in - j))
    else
      (strided 0 range.num_in range.tile_size).flatMap fun j_tile =>
        let j_end := min (j_tile + range.tile_size) range.num_in
        (strided j_tile j_end G).flatMap fun j =>
          range.group inputs coeff k_start Kk j (min G (j_end - j))

/-- The steps of a worker. -/
def WorkerThread : List (Step Address Gf64) :=
  if range.total_num_out ≤ 32 then range.smallRecovery inputs coeff
  else (strided 0 range.num_out K).flatMap (range.process_out inputs coeff K G)

/-! ## The words of the outputs -/

/-- A word of an output. -/
def cell (k i : ℕ) : Address := range.out_start.plus (k * range.stride_len + i)

/-- The words that the worker may write. -/
def region : Set Address :=
  {address | ∃ k < range.num_out, address.within (range.out k) range.block_size64}

/-- The product of an input and a coefficient that belongs in a word of an output. -/
def product (k i j : ℕ) : Gf64 :=
  inputs (range.in_start + j * range.stride_len + i) *
    coeff (range.coeff_row_start + (k * range.coeff_stride + j))

/-- The worker adds the product of this input and this coefficient to this word of its buffer. -/
def multiplies (output coefficient input : ℕ) : Prop :=
  ∃ k < range.num_out, ∃ j < range.num_in, ∃ i < range.block_size64,
    output = range.out_start.offset + (k * range.stride_len + i) ∧
      coefficient = range.coeff_row_start + (k * range.coeff_stride + j) ∧
      input = range.in_start + j * range.stride_len + i

/-- The blocks do not reach into each other. -/
def separate : Prop := range.block_size64 ≤ range.stride_len

variable {range} {k i : ℕ}

theorem cell_within (inside : i < range.block_size64) :
    (range.cell k i).within (range.out k) range.block_size64 := by
  refine ⟨rfl, ?_, ?_⟩
  · simp only [cell, out, Address.plus_offset]
    omega
  · simp only [cell, out, Address.plus_offset]
    omega

theorem within_cell {address : Address}
    (inside : address.within (range.out k) range.block_size64) :
    ∃ i < range.block_size64, address = range.cell k i := by
  refine ⟨address.offset - (range.out k).offset, ?_, ?_⟩
  · obtain ⟨_, lower, upper⟩ := inside
    omega
  · have whole := Address.plus_sub inside
    rw [out, Address.plus_plus] at whole
    exact whole.symm

theorem cell_sub (k i : ℕ) : (range.cell k i).offset - (range.out k).offset = i := by
  simp only [cell, out, Address.plus_offset]
  omega

/-- A word lies in one output only. -/
theorem cell_alone (separate : range.separate) (inside : i < range.block_size64) {other : ℕ}
    (here : (range.cell k i).within (range.out other) range.block_size64) : other = k := by
  obtain ⟨_, lower, upper⟩ := here
  simp only [cell, out, Address.plus_offset] at lower upper
  have size : range.block_size64 ≤ range.stride_len := separate
  by_contra apart
  rcases Nat.lt_or_gt_of_ne apart with before | after
  · have rows : (other + 1) * range.stride_len ≤ k * range.stride_len :=
      Nat.mul_le_mul_right _ before
    rw [Nat.succ_mul] at rows
    omega
  · have rows : (k + 1) * range.stride_len ≤ other * range.stride_len :=
      Nat.mul_le_mul_right _ after
    rw [Nat.succ_mul] at rows
    omega

theorem cell_mem_region (below : k < range.num_out) (inside : i < range.block_size64) :
    range.cell k i ∈ range.region :=
  ⟨k, below, cell_within inside⟩

/-! ## The steps -/

section Steps

variable {inputs coeff K G}

/-- Clearing a group of outputs sets their words to zero. -/
theorem clear_inside (separate : range.separate) (inside : i < range.block_size64)
    {k_start count : ℕ} (first : k_start ≤ k) (last : k < k_start + count) :
    Acts (range.clear k_start count) (range.cell k i)
      fun old => if range.accumulate then old else 0 := by
  unfold clear
  split
  · exact Acts.nil
  · apply Acts.once List.nodup_range (List.mem_range.mpr (by omega : k - k_start < count))
    · rw [Nat.add_sub_of_le first]
      exact memset_within (cell_within inside)
    · intro other _ apart
      apply memset_outside
      intro here
      have same := cell_alone separate inside here
      omega

theorem clear_outside {address : Address} {k_start count : ℕ}
    (outside : ∀ k < count, ¬ address.within (range.out (k_start + k)) range.block_size64) :
    Acts (range.clear k_start count) address id := by
  unfold clear
  split
  · exact Acts.nil
  · apply Acts.keeps
    intro k member
    exact memset_outside (outside k (List.mem_range.mp member))

/-- A group of inputs adds its products to the outputs of the group. -/
theorem group_inside (separate : range.separate) (inside : i < range.block_size64)
    {k_start Kk : ℕ} (j Gk : ℕ) (first : k_start ≤ k) (last : k < k_start + Kk) :
    Acts (range.group inputs coeff k_start Kk j Gk) (range.cell k i)
      (· + ∑ g ∈ Finset.range Gk, range.product inputs coeff k i (j + g)) := by
  have own : k_start + (k - k_start) = k := Nat.add_sub_of_le first
  have adds := @blockMuladd_within (range.cell k i) (fun k => range.out (k_start + k))
    range.block_size64 Kk (fun g => range.inBlock inputs (j + g)) Gk
    (fun index => coeff (range.coeff_row_start + k_start * range.coeff_stride + j + index))
    range.coeff_stride (k - k_start) (by omega)
    (by rw [own]; exact cell_within inside)
    (by
      intro other _ here
      have same := cell_alone separate inside here
      omega)
  have term : ∀ g, range.inBlock inputs (j + g) i *
      coeff (range.coeff_row_start + k_start * range.coeff_stride + j +
        ((k - k_start) * range.coeff_stride + g)) = range.product inputs coeff k i (j + g) := by
    intro g
    have row : k * range.coeff_stride =
        k_start * range.coeff_stride + (k - k_start) * range.coeff_stride := by
      rw [← Nat.add_mul, own]
    rw [inBlock, product, row]
    congr 2
    omega
  simp only [own, cell_sub, term] at adds
  exact adds

theorem group_outside {address : Address} {k_start Kk : ℕ} (j Gk : ℕ)
    (outside : ∀ k < Kk, ¬ address.within (range.out (k_start + k)) range.block_size64) :
    Acts (range.group inputs coeff k_start Kk j Gk) address id :=
  blockMuladd_outside _ _ _ _ outside

/-- The sum of a group is the sum over its inputs. -/
theorem group_sum (k j j_end : ℕ) (term : ℕ → Gf64) :
    ∑ g ∈ Finset.range (min k (j_end - j)), term (j + g) =
      ∑ index ∈ Finset.Ico j (min (j + k) j_end), term index := by
  rw [Finset.sum_Ico_eq_sum_range]
  congr 2
  omega

/-- The groups of inputs from one to another add all products of these inputs. -/
theorem groups_inside (separate : range.separate) (inside : i < range.block_size64) {k_start Kk : ℕ}
    (pos : 0 < G) (first : k_start ≤ k) (last : k < k_start + Kk) {j j_end : ℕ}
    (ordered : j ≤ j_end) :
    Acts ((strided j j_end G).flatMap fun j =>
        range.group inputs coeff k_start Kk j (min G (j_end - j))) (range.cell k i)
      (· + ∑ index ∈ Finset.Ico j j_end, range.product inputs coeff k i index) := by
  rw [← sum_strided pos ordered]
  apply Acts.adds
  intro value _
  rw [← group_sum]
  exact group_inside separate inside value _ first last

/-- A group of outputs gets all products of its inputs. -/
theorem process_out_inside (separate : range.separate) (inside : i < range.block_size64)
    (pos : 0 < G) {k_start : ℕ} (below : k < range.num_out) (first : k_start ≤ k)
    (last : k < k_start + K) :
    Acts (range.process_out inputs coeff K G k_start) (range.cell k i)
      fun old => (if range.accumulate then old else 0) +
        ∑ j ∈ Finset.range range.num_in, range.product inputs coeff k i j := by
  have short : k < k_start + min K (range.num_out - k_start) := by omega
  have cleared := clear_inside separate inside first short
  have products : ∑ j ∈ Finset.range range.num_in, range.product inputs coeff k i j =
      ∑ j ∈ Finset.Ico 0 range.num_in, range.product inputs coeff k i j := by
    rw [Finset.range_eq_Ico]
  rw [process_out, products]
  split
  · exact cleared.append_adds (groups_inside separate inside pos first short (Nat.zero_le _))
  · rename_i tiled
    have tile : 0 < range.tile_size := by omega
    have sum := sum_strided tile (Nat.zero_le range.num_in) (range.product inputs coeff k i)
    have added : Acts ((strided 0 range.num_in range.tile_size).flatMap fun j_tile =>
        let j_end := min (j_tile + range.tile_size) range.num_in
        (strided j_tile j_end G).flatMap fun j =>
          range.group inputs coeff k_start (min K (range.num_out - k_start)) j (min G (j_end - j)))
        (range.cell k i)
        (· + ∑ index ∈ Finset.Ico 0 range.num_in, range.product inputs coeff k i index) := by
      rw [← sum]
      apply Acts.adds
      intro j_tile member
      have bounds := strided_bounds tile member
      apply groups_inside separate inside pos first short
      omega
    exact cleared.append_adds added

theorem process_out_outside {address : Address} {k_start : ℕ}
    (outside : ∀ k < range.num_out, k_start ≤ k → k < k_start + K →
      ¬ address.within (range.out k) range.block_size64) :
    Acts (range.process_out inputs coeff K G k_start) address id := by
  have apart : ∀ k < min K (range.num_out - k_start),
      ¬ address.within (range.out (k_start + k)) range.block_size64 := by
    intro k below
    apply outside
    · omega
    · omega
    · omega
  have cleared := clear_outside apart
  rw [process_out]
  split
  · apply cleared.append_keeps
    apply Acts.keeps
    intro j _
    exact group_outside j _ apart
  · apply cleared.append_keeps
    apply Acts.keeps
    intro j_tile _
    apply Acts.keeps
    intro j _
    exact group_outside j _ apart

/-- Few outputs get all products of their inputs too. A coefficient that is zero is left out
when there is one output. -/
theorem smallRecovery_inside (separate : range.separate) (inside : i < range.block_size64)
    (below : k < range.num_out) :
    Acts (range.smallRecovery inputs coeff) (range.cell k i)
      fun old => (if range.accumulate then old else 0) +
        ∑ j ∈ Finset.range range.num_in, range.product inputs coeff k i j := by
  have cleared := clear_inside separate inside (Nat.zero_le k) (by omega : k < 0 + range.num_out)
  rw [smallRecovery]
  split
  · rename_i one
    obtain rfl : k = 0 := by omega
    have start : range.out 0 = range.out_start := by
      rw [out, Nat.zero_mul]
      rfl
    apply cleared.append_adds
    apply Acts.adds_range
    intro j _
    have term : range.product inputs coeff 0 i j =
        range.inBlock inputs j i * coeff (range.coeff_row_start + j) := by
      rw [product, inBlock, Nat.zero_mul, Nat.zero_add]
    dsimp only
    rw [term]
    split
    · have here := cell_within (k := 0) inside
      rw [start] at here
      have adds := muladd_within (range.inBlock inputs j) (coeff (range.coeff_row_start + j)) here
      rwa [← start, cell_sub, start] at adds
    · rename_i zero
      rw [not_not.mp zero, mul_zero]
      intro memory
      exact (add_zero _).symm
  · apply cleared.append_adds
    apply Acts.adds_range
    intro j _
    have adds := fusedMuladd_within (range.inBlock inputs j)
      (fun k => coeff (range.coeff_row_start + (k * range.coeff_stride + j))) below
      (cell_within inside) fun other _ here => cell_alone separate inside here
    rw [cell_sub] at adds
    exact adds

end Steps

/-! ## A whole worker -/

section Worker

variable {inputs coeff K G}

/-- A worker leaves in each word of its outputs the sum of the products of its inputs, on top of
the old word if it accumulates. -/
theorem WorkerThread_inside (separate : range.separate) (groups : 0 < K ∧ 0 < G)
    (below : k < range.num_out) (inside : i < range.block_size64) :
    Acts (range.WorkerThread inputs coeff K G) (range.cell k i)
      fun old => (if range.accumulate then old else 0) +
        ∑ j ∈ Finset.range range.num_in, range.product inputs coeff k i j := by
  rw [WorkerThread]
  split
  · exact smallRecovery_inside separate inside below
  · apply Acts.strided_once groups.1 ⟨Nat.zero_le k, below⟩
    · intro k_start first _ last
      exact process_out_inside separate inside groups.2 below first last
    · intro k_start apart
      apply process_out_outside
      intro other _ first last here
      have same := cell_alone separate inside here
      omega

/-- A step that acts on the words of the outputs and on no others. -/
theorem local_of_cells {step : Step Address Gf64}
    (cells : ∀ k < range.num_out, ∀ i < range.block_size64,
      ∃ change, Acts [step] (range.cell k i) change)
    (outside : ∀ address ∉ range.region, Acts [step] address id) : Local range.region step where
  acts := by
    intro address
    by_cases member : address ∈ range.region
    · obtain ⟨k, below, inside⟩ := member
      obtain ⟨i, short, rfl⟩ := within_cell inside
      exact cells k below i short
    · exact ⟨id, outside address member⟩
  outside := outside

theorem clear_local (separate : range.separate) {k_start count : ℕ}
    (bound : k_start + count ≤ range.num_out) :
    ∀ step ∈ range.clear k_start count, Local range.region step := by
  intro step member
  unfold clear at member
  split at member
  · cases member
  · obtain ⟨k, below, here⟩ := List.mem_flatMap.mp member
    rw [List.mem_range] at below
    rw [List.mem_singleton] at here
    subst here
    apply local_of_cells
    · intro other _ i inside
      by_cases own : other = k_start + k
      · rw [own]
        exact ⟨_, memset_within (cell_within inside)⟩
      · refine ⟨_, memset_outside fun here => ?_⟩
        exact own (cell_alone separate inside here).symm
    · intro address outside
      apply memset_outside
      intro here
      exact outside ⟨k_start + k, by omega, here⟩

theorem group_local (separate : range.separate) {k_start Kk : ℕ} (j Gk : ℕ)
    (bound : k_start + Kk ≤ range.num_out) :
    ∀ step ∈ range.group inputs coeff k_start Kk j Gk, Local range.region step := by
  intro step member
  rw [group, List.mem_singleton] at member
  subst member
  apply local_of_cells
  · intro k _ i inside
    by_cases own : k_start ≤ k ∧ k < k_start + Kk
    · exact ⟨_, group_inside separate inside j Gk own.1 own.2⟩
    · refine ⟨_, group_outside j Gk fun other below here => ?_⟩
      have same := cell_alone separate inside here
      omega
  · intro address outside
    apply group_outside j Gk
    intro k below here
    exact outside ⟨k_start + k, by omega, here⟩

theorem smallRecovery_local (separate : range.separate) :
    ∀ step ∈ range.smallRecovery inputs coeff, Local range.region step := by
  intro step member
  rw [smallRecovery, List.mem_append] at member
  rcases member with member | member
  · exact clear_local separate (by omega) step member
  · split at member
    · rename_i one
      obtain ⟨j, _, here⟩ := List.mem_flatMap.mp member
      have start : range.out 0 = range.out_start := by
        rw [out, Nat.zero_mul]
        rfl
      dsimp only at here
      split at here
      · rw [List.mem_singleton] at here
        subst here
        rw [← start]
        apply local_of_cells
        · intro k below i inside
          obtain rfl : k = 0 := by omega
          exact ⟨_, muladd_within _ _ (cell_within inside)⟩
        · intro address outside
          apply muladd_outside
          intro here
          exact outside ⟨0, by omega, here⟩
      · cases here
    · obtain ⟨j, _, here⟩ := List.mem_flatMap.mp member
      rw [List.mem_singleton] at here
      subst here
      apply local_of_cells
      · intro k below i inside
        exact ⟨_, fusedMuladd_within _ _ below (cell_within inside) fun other _ here =>
          cell_alone separate inside here⟩
      · intro address outside
        apply fusedMuladd_outside
        intro k below here
        exact outside ⟨k, below, here⟩

theorem process_out_local (separate : range.separate) {k_start : ℕ} (below : k_start < range.num_out) :
    ∀ step ∈ range.process_out inputs coeff K G k_start, Local range.region step := by
  intro step member
  have bound : k_start + min K (range.num_out - k_start) ≤ range.num_out := by omega
  rw [process_out, List.mem_append] at member
  rcases member with member | member
  · exact clear_local separate bound step member
  · split at member
    · obtain ⟨j, _, here⟩ := List.mem_flatMap.mp member
      exact group_local separate j _ bound step here
    · obtain ⟨j_tile, _, here⟩ := List.mem_flatMap.mp member
      obtain ⟨j, _, here⟩ := List.mem_flatMap.mp here
      exact group_local separate j _ bound step here

/-- No step of a worker reads or writes a word outside its outputs. -/
theorem WorkerThread_local (separate : range.separate) (groups : 0 < K ∧ 0 < G) :
    ∀ step ∈ range.WorkerThread inputs coeff K G, Local range.region step := by
  intro step member
  rw [WorkerThread] at member
  split at member
  · exact smallRecovery_local separate step member
  · obtain ⟨k_start, tile, here⟩ := List.mem_flatMap.mp member
    exact process_out_local separate (strided_bounds groups.1 tile).2 step here

end Worker

end WorkerRange

end Par3
