import Par3.RecoveryBlocks

/-!
# Recovery blocks are the Cauchy product

Each worker of a call has a box of the work: some recovery blocks, some words of each and some
inputs. The boxes of the three ways to divide the work cover every product once, and two workers
with a word in common never write to the same buffer. So a call leaves in each word the sum over
all inputs, in every order of the workers' steps.
-/

namespace Par3

open Interleaving

/-- Some recovery blocks, some words of each and some inputs, and the buffer for the sums. -/
structure Box where
  buffer : ℕ
  rowStart : ℕ
  rowEnd : ℕ
  wordStart : ℕ
  wordEnd : ℕ
  inStart : ℕ
  inEnd : ℕ

namespace Box

variable (box : Box)

/-- The word of a recovery block is in the box. -/
def writes (r w : ℕ) : Prop :=
  (box.rowStart ≤ r ∧ r < box.rowEnd) ∧ box.wordStart ≤ w ∧ w < box.wordEnd

/-- The box has the product of an input for a word of a recovery block. -/
def contains (r c w : ℕ) : Prop := box.writes r w ∧ box.inStart ≤ c ∧ c < box.inEnd

end Box

namespace RecoveryCall

variable (call : RecoveryCall) (host : EngineHost)

/-- The range of a worker with a box. -/
def boxRange (accumulate : Bool) (box : Box) : WorkerRange where
  out_start := ⟨box.buffer, box.rowStart * call.blockSize64 + box.wordStart⟩
  num_out := box.rowEnd - box.rowStart
  total_num_out := call.numRecovery
  in_start := box.inStart * call.blockSize64 + box.wordStart
  num_in := box.inEnd - box.inStart
  coeff_row_start := box.rowStart * call.numInputs + box.inStart
  coeff_stride := call.numInputs
  block_size64 := box.wordEnd - box.wordStart
  block_stride64 := call.blockSize64
  tile_size := host.tileSize call.blockSize64
  accumulate := accumulate

/-- The products of the inputs from one to another for a word of a recovery block. -/
def sum (inputs coeff : Words) (r w inStart inEnd : ℕ) : Gf64 :=
  ∑ c ∈ Finset.Ico inStart inEnd,
    inputs (c * call.blockSize64 + w) * coeff (r * call.numInputs + c)

section Boxes

variable {call host} {accumulate : Bool} {box : Box}

theorem boxRange_stride (bounded : box.wordEnd ≤ call.blockSize64) :
    (call.boxRange host accumulate box).stride_len = call.blockSize64 := by
  rw [WorkerRange.stride_len]
  split
  · rename_i empty
    simp only [boxRange] at empty ⊢
    omega
  · rfl

theorem boxRange_separate (bounded : box.wordEnd ≤ call.blockSize64) :
    (call.boxRange host accumulate box).separate := by
  rw [WorkerRange.separate, boxRange_stride bounded]
  simp only [boxRange]
  omega

/-- A word of a recovery block is a word of an output of the box. -/
theorem boxRange_cell (bounded : box.wordEnd ≤ call.blockSize64) {r w : ℕ} (row : box.rowStart ≤ r)
    (word : box.wordStart ≤ w) :
    (call.boxRange host accumulate box).cell (r - box.rowStart) (w - box.wordStart) =
      ⟨box.buffer, r * call.blockSize64 + w⟩ := by
  have rows : r * call.blockSize64 =
      box.rowStart * call.blockSize64 + (r - box.rowStart) * call.blockSize64 := by
    rw [← Nat.add_mul, Nat.add_sub_of_le row]
  rw [WorkerRange.cell, boxRange_stride bounded]
  simp only [boxRange, Address.plus, Address.mk.injEq, true_and]
  omega

/-- The words that the worker of a box may write. -/
theorem boxRange_region (bounded : box.wordEnd ≤ call.blockSize64) (address : Address) :
    address ∈ (call.boxRange host accumulate box).region ↔
      ∃ r w, box.writes r w ∧ address = ⟨box.buffer, r * call.blockSize64 + w⟩ := by
  constructor
  · rintro ⟨k, below, inside⟩
    obtain ⟨i, short, rfl⟩ := WorkerRange.within_cell inside
    simp only [boxRange] at below short
    refine ⟨box.rowStart + k, box.wordStart + i, ⟨⟨by omega, by omega⟩, by omega, by omega⟩, ?_⟩
    have cell := @boxRange_cell call host accumulate box bounded (box.rowStart + k)
      (box.wordStart + i) (Nat.le_add_right _ _) (Nat.le_add_right _ _)
    rwa [Nat.add_sub_cancel_left, Nat.add_sub_cancel_left] at cell
  · rintro ⟨r, w, ⟨⟨row, rowBelow⟩, word, wordBelow⟩, rfl⟩
    rw [← boxRange_cell bounded row word]
    apply WorkerRange.cell_mem_region
    · simp only [boxRange]
      omega
    · simp only [boxRange]
      omega

/-- The worker of a box adds the products of its inputs to its words. -/
theorem boxRange_acts (inputs coeff : Words) (bounded : box.wordEnd ≤ call.blockSize64) {r w : ℕ}
    (inside : box.writes r w) :
    Acts ((call.boxRange host accumulate box).WorkerThread inputs coeff host.GetKGroupSize
        host.GetGroupSize) ⟨box.buffer, r * call.blockSize64 + w⟩
      fun old => (if accumulate then old else 0) +
        call.sum inputs coeff r w box.inStart box.inEnd := by
  obtain ⟨⟨row, rowBelow⟩, word, wordBelow⟩ := inside
  have below : r - box.rowStart < (call.boxRange host accumulate box).num_out := by
    simp only [boxRange]
    omega
  have short : w - box.wordStart < (call.boxRange host accumulate box).block_size64 := by
    simp only [boxRange]
    omega
  have groups : 0 < host.GetKGroupSize ∧ 0 < host.GetGroupSize :=
    ⟨host.groupSize_pos _, host.groupSize_pos _⟩
  have acts := @WorkerRange.WorkerThread_inside _ inputs coeff _ _ _ _
    (@boxRange_separate call host accumulate box bounded) groups below short
  have rows : r * call.numInputs =
      box.rowStart * call.numInputs + (r - box.rowStart) * call.numInputs := by
    rw [← Nat.add_mul, Nat.add_sub_of_le row]
  have terms : ∀ j, (call.boxRange host accumulate box).product inputs coeff (r - box.rowStart)
      (w - box.wordStart) j = inputs ((box.inStart + j) * call.blockSize64 + w) *
        coeff (r * call.numInputs + (box.inStart + j)) := by
    intro j
    rw [WorkerRange.product, boxRange_stride bounded, rows, Nat.add_mul]
    simp only [boxRange]
    congr 2
    · omega
    · omega
  rw [boxRange_cell bounded row word] at acts
  rw [sum, Finset.sum_Ico_eq_sum_range]
  simp only [terms] at acts
  exact acts

end Boxes

/-! ## Work that is divided into boxes -/

/-- The boxes of the workers. Boxes with a word in common have different buffers, and every
product is in one box. -/
structure Divides (accumulate : Bool) (boxes : ℕ × ℕ → Option Box) : Prop where
  ranges : ∀ label, call.ranges host label = (boxes label).map (call.boxRange host accumulate)
  bounded : ∀ (label : ℕ × ℕ) (box : Box), boxes label = some box → box.wordEnd ≤ call.blockSize64
  rows : ∀ (label : ℕ × ℕ) (box : Box), boxes label = some box → box.rowEnd ≤ call.numRecovery
  apart : ∀ (first second : ℕ × ℕ) (one other : Box), boxes first = some one →
    boxes second = some other → one.buffer = other.buffer →
    ∀ r w, one.writes r w → other.writes r w → first = second
  once : ∀ r < call.numRecovery, ∀ c < call.numInputs, ∀ w < call.blockSize64,
    ∃! label, ∃ box, boxes label = some box ∧ box.contains r c w

/-- A word of a buffer belongs to one recovery block only. -/
theorem word_unique {size r w row word : ℕ} (inside : w < size) (below : word < size)
    (same : r * size + w = row * size + word) : r = row ∧ w = word := by
  have rows : r = row := by
    have left : (r * size + w) / size = r := by
      rw [Nat.mul_comm, Nat.mul_add_div (by omega), Nat.div_eq_of_lt inside, Nat.add_zero]
    have right : (row * size + word) / size = row := by
      rw [Nat.mul_comm, Nat.mul_add_div (by omega), Nat.div_eq_of_lt below, Nat.add_zero]
    rw [← left, same, right]
  subst rows
  exact ⟨rfl, Nat.add_left_cancel same⟩

/-- The products of a range are those of its box. -/
theorem boxRange_multiplies {accumulate : Bool} {box : Box}
    (bounded : box.wordEnd ≤ call.blockSize64) {r c w : ℕ} (word : w < call.blockSize64) :
    (call.boxRange host accumulate box).multiplies (r * call.blockSize64 + w)
      (r * call.numInputs + c) (c * call.blockSize64 + w) ↔ box.contains r c w := by
  have stride := @boxRange_stride call host accumulate box bounded
  constructor
  · rintro ⟨k, below, j, before, i, short, output, _, input⟩
    rw [stride] at output input
    simp only [boxRange] at below before short output input
    have outputs : r * call.blockSize64 + w =
        (box.rowStart + k) * call.blockSize64 + (box.wordStart + i) := by
      rw [Nat.add_mul]
      omega
    have inputs : c * call.blockSize64 + w =
        (box.inStart + j) * call.blockSize64 + (box.wordStart + i) := by
      rw [Nat.add_mul]
      omega
    obtain ⟨rfl, _⟩ := word_unique word (by omega) outputs
    obtain ⟨rfl, rfl⟩ := word_unique word (by omega) inputs
    exact ⟨⟨⟨by omega, by omega⟩, by omega, by omega⟩, by omega, by omega⟩
  · rintro ⟨⟨⟨row, rowBelow⟩, first, last⟩, start, stop⟩
    obtain ⟨k, rfl⟩ := Nat.exists_eq_add_of_le row
    obtain ⟨i, rfl⟩ := Nat.exists_eq_add_of_le first
    obtain ⟨j, rfl⟩ := Nat.exists_eq_add_of_le start
    refine ⟨k, ?_, j, ?_, i, ?_, ?_, ?_, ?_⟩
    · simp only [boxRange]
      omega
    · simp only [boxRange]
      omega
    · simp only [boxRange]
      omega
    · rw [stride, Nat.add_mul]
      simp only [boxRange]
      omega
    · rw [Nat.add_mul]
      simp only [boxRange]
      omega
    · rw [stride, Nat.add_mul]
      simp only [boxRange]
      omega

namespace Divides

variable {call host} {accumulate : Bool} {boxes : ℕ × ℕ → Option Box} {inputs coeff : Words}

/-- The words that the worker with a label may write. -/
def labelRegion (call : RecoveryCall) (boxes : ℕ × ℕ → Option Box) (label : ℕ × ℕ) : Set Address :=
  {address | ∃ box, boxes label = some box ∧ ∃ r w, box.writes r w ∧
    address = ⟨box.buffer, r * call.blockSize64 + w⟩}

theorem confined (divides : call.Divides host accumulate boxes) (label : ℕ × ℕ) :
    ∀ step ∈ call.worker host inputs coeff label,
      Confined (labelRegion call boxes label) step := by
  intro step member
  rw [worker, divides.ranges] at member
  cases found : boxes label with
  | none =>
    rw [found] at member
    cases member
  | some box =>
    rw [found] at member
    have bounded := divides.bounded label box found
    have alone := WorkerRange.WorkerThread_local (boxRange_separate bounded)
      ⟨host.groupSize_pos _, host.groupSize_pos _⟩ step member
    apply alone.confined.mono
    intro address here
    exact ⟨box, found, (boxRange_region bounded address).mp here⟩

theorem disjoint (divides : call.Divides host accumulate boxes) (first second : ℕ × ℕ)
    (apart : first ≠ second) :
    Disjoint (labelRegion call boxes first) (labelRegion call boxes second) := by
  rw [Set.disjoint_left]
  rintro address ⟨one, foundOne, r, w, inside, rfl⟩ ⟨other, foundOther, row, word, there, same⟩
  rw [Address.mk.injEq] at same
  obtain ⟨buffer, offset⟩ := same
  have oneBounded := divides.bounded first one foundOne
  have otherBounded := divides.bounded second other foundOther
  obtain ⟨rfl, rfl⟩ := word_unique (lt_of_lt_of_le inside.2.2 oneBounded)
    (lt_of_lt_of_le there.2.2 otherBounded) offset
  exact apart (divides.apart first second one other foundOne foundOther buffer r w inside there)

/-- Each word of a box is as the worker of the box leaves it. -/
theorem joined_inside (divides : call.Divides host accumulate boxes) {memory joined : Memory}
    (interleaved : Interleaved (call.worker host inputs coeff) memory joined) {label : ℕ × ℕ}
    {box : Box} (found : boxes label = some box) {r w : ℕ} (inside : box.writes r w) :
    joined ⟨box.buffer, r * call.blockSize64 + w⟩ =
      (if accumulate then memory ⟨box.buffer, r * call.blockSize64 + w⟩ else 0) +
        call.sum inputs coeff r w box.inStart box.inEnd := by
  rw [interleaved.apply divides.confined divides.disjoint label _ ⟨box, found, r, w, inside, rfl⟩]
  have bounded := divides.bounded label box found
  rw [worker, divides.ranges, found]
  exact boxRange_acts inputs coeff bounded inside memory

/-- Every product is made by one worker. -/
theorem multiplies_once (divides : call.Divides host accumulate boxes) {r c w : ℕ}
    (row : r < call.numRecovery) (input : c < call.numInputs) (word : w < call.blockSize64) :
    ∃! label, ∃ range, call.ranges host label = some range ∧
      range.multiplies (r * call.blockSize64 + w) (r * call.numInputs + c)
        (c * call.blockSize64 + w) := by
  obtain ⟨label, ⟨box, found, inside⟩, alone⟩ := divides.once r row c input w word
  refine ⟨label, ⟨call.boxRange host accumulate box, ?_, ?_⟩, ?_⟩
  · rw [divides.ranges, found, Option.map_some]
  · exact (boxRange_multiplies call host (divides.bounded label box found) word).mpr inside
  · rintro other ⟨range, there, multiplies⟩
    rw [divides.ranges] at there
    obtain ⟨otherBox, foundOther, rfl⟩ := Option.map_eq_some_iff.mp there
    have bounded := divides.bounded other otherBox foundOther
    exact alone other ⟨otherBox, foundOther, (boxRange_multiplies call host bounded word).mp multiplies⟩

/-- A word that is in no box is left alone. -/
theorem joined_outside (divides : call.Divides host accumulate boxes) {memory joined : Memory}
    (interleaved : Interleaved (call.worker host inputs coeff) memory joined) {address : Address}
    (outside : ∀ label, address ∉ labelRegion call boxes label) :
    joined address = memory address :=
  interleaved.outside divides.confined address fun label _ => outside label

end Divides

/-! ## The three ways to divide the work -/

section Divisions

variable {call host}

/-- One worker has the whole work. -/
def singleBox (call : RecoveryCall) (label : ℕ × ℕ) : Option Box :=
  if label = (0, 0) then
    some ⟨recoveryBuffer, 0, call.numRecovery, 0, call.blockSize64, 0, call.numInputs⟩
  else none

theorem singleBox_divides (path : call.decomposition host = .single) :
    call.Divides host call.accumulate (singleBox call) where
  ranges := by
    intro label
    rw [ranges, path, singleBox]
    dsimp only
    split
    · simp only [Option.map_some, boxRange, singleRange, Nat.zero_mul, Nat.zero_add, Nat.sub_zero]
    · rfl
  bounded := by
    intro label box found
    rw [singleBox] at found
    split at found
    · obtain rfl := Option.some.inj found
      exact le_rfl
    · cases found
  rows := by
    intro label box found
    rw [singleBox] at found
    split at found
    · obtain rfl := Option.some.inj found
      exact le_rfl
    · cases found
  apart := by
    intro first second one other foundOne foundOther _ _ _ _ _
    rw [singleBox] at foundOne foundOther
    split at foundOne
    · rename_i atOne
      split at foundOther
      · rename_i atOther
        rw [atOne, atOther]
      · cases foundOther
    · cases foundOne
  once := by
    intro r row c input w word
    refine ⟨(0, 0), ⟨_, if_pos rfl, ⟨⟨Nat.zero_le _, row⟩, Nat.zero_le _, word⟩, Nat.zero_le _, input⟩,
      ?_⟩
    rintro label ⟨box, found, _⟩
    rw [singleBox] at found
    split at found
    · assumption
    · cases found

/-- The conditions under which the inputs are divided. -/
theorem inputWorkers_some {n_input_workers : ℕ}
    (path : call.decomposition host = .inputs n_input_workers) :
    call.accumulate = false ∧ 2 ≤ n_input_workers ∧ n_input_workers ≤ call.numInputs ∧
      call.total_out_words = call.numRecovery * call.blockSize64 := by
  have found : call.inputWorkers host = some n_input_workers := by
    rw [decomposition] at path
    split at path
    · cases path
    · split at path
      · rename_i found
        rw [found]
        exact congrArg some (Decomposition.inputs.inj path)
      · cases path
  rw [inputWorkers] at found
  split at found
  · rename_i allowed
    obtain rfl := Option.some.inj found
    obtain ⟨fresh, fits, _, several, _⟩ := allowed
    refine ⟨Bool.eq_false_iff.mpr fresh, several, min_le_right _ _, ?_⟩
    rw [total_out_words, if_neg]
    intro large
    exact fits (decide_eq_true (.inl large))
  · cases found

theorem inputStart_zero (n_input_workers : ℕ) : call.inputStart n_input_workers 0 = 0 := by
  rw [inputStart, Nat.zero_mul, Nat.zero_div]

theorem inputStart_last {n_input_workers : ℕ} (pos : 0 < n_input_workers) :
    call.inputStart n_input_workers n_input_workers = call.numInputs :=
  Nat.mul_div_cancel_left _ pos

/-- No worker is without inputs. -/
theorem inputStart_lt {n_input_workers : ℕ} (pos : 0 < n_input_workers)
    (enough : n_input_workers ≤ call.numInputs) (t : ℕ) :
    call.inputStart n_input_workers t < call.inputStart n_input_workers (t + 1) := by
  rw [inputStart, inputStart, Nat.succ_mul]
  have one : t * call.numInputs / n_input_workers + 1 =
      (t * call.numInputs + n_input_workers) / n_input_workers := by
    rw [Nat.add_div_right _ pos]
  have grows : (t * call.numInputs + n_input_workers) / n_input_workers ≤
      (t * call.numInputs + call.numInputs) / n_input_workers :=
    Nat.div_le_div_right (Nat.add_le_add_left enough _)
  omega

/-- Each worker has a part of the inputs for all recovery blocks, and a buffer of its own. -/
def inputBox (call : RecoveryCall) (n_input_workers : ℕ) (label : ℕ × ℕ) : Option Box :=
  if label.1 < n_input_workers ∧ label.2 = 0 then
    some ⟨label.1, 0, call.numRecovery, 0, call.blockSize64, call.inputStart n_input_workers label.1,
      call.inputStart n_input_workers (label.1 + 1)⟩
  else none

theorem inputBox_some {n_input_workers : ℕ} {label : ℕ × ℕ} {box : Box}
    (found : inputBox call n_input_workers label = some box) :
    label = (box.buffer, 0) ∧ box.rowEnd = call.numRecovery ∧ box.wordEnd = call.blockSize64 ∧
      box.inStart = call.inputStart n_input_workers box.buffer ∧
      box.inEnd = call.inputStart n_input_workers (box.buffer + 1) := by
  rw [inputBox] at found
  split at found
  · rename_i valid
    obtain rfl := Option.some.inj found
    exact ⟨Prod.ext rfl valid.2, rfl, rfl, rfl, rfl⟩
  · cases found

theorem inputBox_divides {n_input_workers : ℕ}
    (path : call.decomposition host = .inputs n_input_workers) :
    call.Divides host false (inputBox call n_input_workers) where
  ranges := by
    intro label
    obtain ⟨fresh, several, enough, _⟩ := inputWorkers_some path
    rw [ranges, path, inputBox]
    dsimp only
    split
    · have some := inputStart_lt (by omega) enough label.1
      rw [inputRange, if_neg (by omega), Option.map_some, boxRange]
      simp only [Nat.zero_mul, Nat.zero_add, Nat.add_zero, Nat.sub_zero, fresh, ite_self]
      congr 2
      split
      · rename_i first
        rw [first, recoveryBuffer]
      · rfl
    · rfl
  bounded := by
    intro label box found
    exact (inputBox_some found).2.2.1.le
  rows := by
    intro label box found
    exact (inputBox_some found).2.1.le
  apart := by
    intro first second one other foundOne foundOther same _ _ _ _
    rw [(inputBox_some foundOne).1, (inputBox_some foundOther).1, same]
  once := by
    intro r row c input w word
    obtain ⟨_, several, _, _⟩ := inputWorkers_some path
    have pos : 0 < n_input_workers := by omega
    obtain ⟨t, below, inside⟩ := @exists_part (call.inputStart n_input_workers) n_input_workers c
      (by rw [inputStart_zero]; exact Nat.zero_le _) (by rwa [inputStart_last pos])
    refine ⟨(t, 0), ⟨_, if_pos ⟨below, rfl⟩, ⟨⟨Nat.zero_le _, row⟩, Nat.zero_le _, word⟩, inside⟩, ?_⟩
    rintro label ⟨box, found, _, here⟩
    obtain ⟨same, _, _, start, stop⟩ := inputBox_some found
    rw [start, stop] at here
    rw [same, part_unique (share_monotone call.numInputs n_input_workers) here inside]

theorem SR_pos : 0 < call.SR host := by
  unfold SR
  dsimp only
  split
  · norm_num
  · omega

theorem SB_pos : 0 < call.SB host := by
  unfold SB
  dsimp only
  split
  · split
    · norm_num
    · rename_i some
      exact Nat.pos_of_ne_zero some
  · norm_num

theorem rowStart_last : call.rowStart host (call.SR host) = call.numRecovery :=
  Nat.mul_div_cancel_left _ SR_pos

/-- The bounds of the parts of a block, which stay at its end behind the last part. -/
def wordBound (call : RecoveryCall) (host : EngineHost) (wb : ℕ) : ℕ :=
  call.wordStart host (min wb (call.SB host))

theorem wordStart_le {wb : ℕ} (inside : wb ≤ call.SB host) :
    call.wordStart host wb ≤ call.blockSize64 := by
  rw [wordStart]
  split
  · exact le_rfl
  · have share : wb * call.blockSize64 / call.SB host ≤ call.blockSize64 := by
      apply Nat.div_le_of_le_mul
      exact Nat.mul_le_mul_right _ inside
    have aligned := Nat.div_mul_le_self (wb * call.blockSize64 / call.SB host) 8
    omega

theorem wordBound_monotone : Monotone (wordBound call host) := by
  intro first second order
  unfold wordBound
  by_cases last : call.SB host ≤ second
  · rw [min_eq_right last]
    have whole : call.wordStart host (call.SB host) = call.blockSize64 := if_pos rfl
    rw [whole]
    exact wordStart_le (min_le_right _ _)
  · rw [min_eq_left (by omega), min_eq_left (by omega), wordStart, wordStart, if_neg (by omega),
      if_neg (by omega)]
    apply Nat.mul_le_mul_right
    apply Nat.div_le_div_right
    exact share_monotone call.blockSize64 (call.SB host) order

theorem wordBound_eq {wb : ℕ} (inside : wb ≤ call.SB host) :
    wordBound call host wb = call.wordStart host wb := by
  rw [wordBound, min_eq_left inside]

theorem wordBound_zero : wordBound call host 0 = 0 := by
  have pos := @SB_pos call host
  rw [wordBound_eq (Nat.zero_le _), wordStart, if_neg (by omega), Nat.zero_mul, Nat.zero_div,
    Nat.zero_div, Nat.zero_mul]

theorem wordBound_last : wordBound call host (call.SB host) = call.blockSize64 := by
  rw [wordBound_eq le_rfl, wordStart, if_pos rfl]

/-- Each worker has some recovery blocks and some words of each, with all inputs. -/
def blockBox (call : RecoveryCall) (host : EngineHost) (label : ℕ × ℕ) : Option Box :=
  if (label.1 < call.SR host ∧ label.2 < call.SB host) ∧
      call.rowStart host label.1 < call.rowStart host (label.1 + 1) ∧
      wordBound call host label.2 < wordBound call host (label.2 + 1) then
    some ⟨recoveryBuffer, call.rowStart host label.1, call.rowStart host (label.1 + 1),
      wordBound call host label.2, wordBound call host (label.2 + 1), 0, call.numInputs⟩
  else none

theorem blockBox_some {label : ℕ × ℕ} {box : Box} (found : blockBox call host label = some box) :
    (label.1 < call.SR host ∧ label.2 < call.SB host) ∧
      box = ⟨recoveryBuffer, call.rowStart host label.1, call.rowStart host (label.1 + 1),
        wordBound call host label.2, wordBound call host (label.2 + 1), 0, call.numInputs⟩ := by
  rw [blockBox] at found
  split at found
  · rename_i valid
    exact ⟨valid.1, (Option.some.inj found).symm⟩
  · cases found

/-- A word of a recovery block is written by one worker. -/
theorem blockBox_alone {first second : ℕ × ℕ} {one other : Box}
    (foundOne : blockBox call host first = some one)
    (foundOther : blockBox call host second = some other) {r w : ℕ} (here : one.writes r w)
    (there : other.writes r w) : first = second := by
  obtain ⟨_, rfl⟩ := blockBox_some foundOne
  obtain ⟨_, rfl⟩ := blockBox_some foundOther
  apply Prod.ext
  · exact part_unique (share_monotone call.numRecovery (call.SR host)) here.1 there.1
  · exact part_unique wordBound_monotone here.2 there.2

theorem blockBox_divides (path : call.decomposition host = .blocks) :
    call.Divides host call.accumulate (blockBox call host) where
  ranges := by
    intro label
    rw [ranges, path, blockBox]
    dsimp only
    by_cases valid : label.1 < call.SR host ∧ label.2 < call.SB host
    · have next : label.2 + 1 ≤ call.SB host := valid.2
      rw [if_pos valid, blockRange, wordBound_eq valid.2.le, wordBound_eq next]
      by_cases some : call.rowStart host label.1 < call.rowStart host (label.1 + 1) ∧
          call.wordStart host label.2 < call.wordStart host (label.2 + 1)
      · have words : (if call.wordStart host label.2 < call.wordStart host (label.2 + 1) then
            call.wordStart host (label.2 + 1) - call.wordStart host label.2 else 0) =
            call.wordStart host (label.2 + 1) - call.wordStart host label.2 := if_pos some.2
        rw [words, if_neg (by omega), if_pos ⟨valid, some⟩, Option.map_some, boxRange]
        simp only [Nat.zero_mul, Nat.zero_add, Nat.add_zero, Nat.sub_zero]
      · have empty : call.rowStart host (label.1 + 1) - call.rowStart host label.1 = 0 ∨
            (if call.wordStart host label.2 < call.wordStart host (label.2 + 1) then
              call.wordStart host (label.2 + 1) - call.wordStart host label.2 else 0) = 0 := by
          split
          · omega
          · exact .inr rfl
        rw [if_pos empty, if_neg fun both => some both.2, Option.map_none]
    · rw [if_neg valid, if_neg fun both => valid both.1, Option.map_none]
  bounded := by
    intro label box found
    obtain ⟨_, rfl⟩ := blockBox_some found
    exact wordStart_le (min_le_right _ _)
  rows := by
    intro label box found
    obtain ⟨⟨below, _⟩, rfl⟩ := blockBox_some found
    have share := share_monotone call.numRecovery (call.SR host) below
    exact share.trans rowStart_last.le
  apart := by
    intro first second one other foundOne foundOther _ r w here there
    exact blockBox_alone foundOne foundOther here there
  once := by
    intro r row c input w word
    obtain ⟨wr, rowBelow, rowInside⟩ := @exists_part (call.rowStart host) (call.SR host) r
      (by rw [rowStart, Nat.zero_mul, Nat.zero_div]; exact Nat.zero_le _) (by rwa [rowStart_last])
    obtain ⟨wb, wordBelow, wordInside⟩ := @exists_part (wordBound call host) (call.SB host) w
      (by rw [wordBound_zero]; exact Nat.zero_le _) (by rwa [wordBound_last])
    have found : blockBox call host (wr, wb) = some ⟨recoveryBuffer, call.rowStart host wr,
        call.rowStart host (wr + 1), wordBound call host wb, wordBound call host (wb + 1), 0,
        call.numInputs⟩ :=
      if_pos ⟨⟨rowBelow, wordBelow⟩, lt_of_le_of_lt rowInside.1 rowInside.2,
        lt_of_le_of_lt wordInside.1 wordInside.2⟩
    refine ⟨(wr, wb), ⟨_, found, ⟨rowInside, wordInside⟩, Nat.zero_le _, input⟩, ?_⟩
    rintro label ⟨box, here, writes, _⟩
    exact blockBox_alone here found writes ⟨rowInside, wordInside⟩

end Divisions

/-! ## The whole call -/

section Whole

variable {call host} {inputs coeff : Words}

/-- The sum of the scratch buffers goes to the recovery blocks, and the scratch buffers keep their
words. -/
theorem perform_reduction {bufferEnd : ℕ} (included : ℕ → Prop) [DecidablePred included]
    (buffers : List ℕ) (scratch : ∀ t ∈ buffers, t ≠ recoveryBuffer) (memory : Memory) (offset : ℕ) :
    perform (buffers.flatMap fun t =>
        if included t then xor_buffer ⟨recoveryBuffer, 0⟩ ⟨t, 0⟩ bufferEnd else [])
        memory ⟨recoveryBuffer, offset⟩ =
      memory ⟨recoveryBuffer, offset⟩ +
        (buffers.map fun t =>
          if included t ∧ offset < bufferEnd then memory ⟨t, offset⟩ else 0).sum := by
  induction buffers generalizing memory with
  | nil => exact (add_zero _).symm
  | cons t rest ih =>
    have other := scratch t List.mem_cons_self
    have later := ih fun t member => scratch t (List.mem_cons_of_mem _ member)
    rw [List.flatMap_cons, perform_append, later, List.map_cons, List.sum_cons]
    by_cases used : included t
    · have words := @perform_xor_buffer ⟨recoveryBuffer, 0⟩ ⟨t, 0⟩
        (Ne.symm other) bufferEnd memory
      have kept : ∀ s ∈ rest, perform (xor_buffer ⟨recoveryBuffer, 0⟩ ⟨t, 0⟩ bufferEnd) memory
          ⟨s, offset⟩ = memory ⟨s, offset⟩ := by
        intro s member
        rw [words, if_neg]
        intro here
        exact scratch s (List.mem_cons_of_mem _ member) here.1
      have sums : (rest.map fun s => if included s ∧ offset < bufferEnd then
          perform (xor_buffer ⟨recoveryBuffer, 0⟩ ⟨t, 0⟩ bufferEnd) memory ⟨s, offset⟩ else 0) =
          rest.map fun s => if included s ∧ offset < bufferEnd then memory ⟨s, offset⟩ else 0 := by
        apply List.map_congr_left
        intro s member
        rw [kept s member]
      rw [if_pos used, sums, words]
      by_cases inside : offset < bufferEnd
      · rw [if_pos ⟨rfl, Nat.zero_le _, by simpa using inside⟩, if_pos ⟨used, inside⟩, add_assoc]
        simp [Address.plus]
      · rw [if_neg (fun here => inside (by simpa using here.2.2)), if_neg (fun both => inside both.2),
          zero_add]
    · rw [if_neg used, if_neg (fun both => used both.1), zero_add, perform_nil]

/-- The workers' work can be interleaved. -/
theorem joined_exists (inputs coeff : Words) (memory : Memory) :
    ∃ joined, Interleaved (call.worker host inputs coeff) memory joined := by
  have bounded : ∃ a b, ∀ label : ℕ × ℕ, call.ranges host label ≠ none → label.1 < a ∧ label.2 < b := by
    cases path : call.decomposition host with
    | single =>
      refine ⟨1, 1, fun label some => ?_⟩
      rw [(singleBox_divides path).ranges, singleBox] at some
      split at some
      · rename_i first
        rw [first]
        exact ⟨Nat.one_pos, Nat.one_pos⟩
      · exact absurd rfl some
    | inputs n_input_workers =>
      refine ⟨n_input_workers, 1, fun label some => ?_⟩
      rw [(inputBox_divides path).ranges, inputBox] at some
      split at some
      · rename_i valid
        rw [valid.2]
        exact ⟨valid.1, Nat.one_pos⟩
      · exact absurd rfl some
    | blocks =>
      refine ⟨call.SR host, call.SB host, fun label some => ?_⟩
      rw [(blockBox_divides path).ranges, blockBox] at some
      split at some
      · rename_i valid
        exact valid.1
      · exact absurd rfl some
  obtain ⟨a, b, bounded⟩ := bounded
  apply interleaved_exists ((List.range a).product (List.range b))
    (List.nodup_range.product List.nodup_range)
  intro label absent
  rw [worker]
  cases found : call.ranges host label with
  | none => rfl
  | some range =>
    have inside := bounded label (by rw [found]; exact Option.some_ne_none _)
    refine absurd ?_ absent
    exact List.mem_product.mpr ⟨List.mem_range.mpr inside.1, List.mem_range.mpr inside.2⟩

theorem ComputeRecoveryBlocksWithCoeff_exists (call : RecoveryCall) (host : EngineHost)
    (inputs coeff : Words) (memory : Memory) :
    ∃ last, call.ComputeRecoveryBlocksWithCoeff host inputs coeff memory last := by
  unfold ComputeRecoveryBlocksWithCoeff
  split
  · exact ⟨memory, rfl⟩
  · obtain ⟨joined, interleaved⟩ := @joined_exists call host inputs coeff
      (perform (call.prepare host) memory)
    exact ⟨_, joined, interleaved, rfl⟩

/-- A step of the preparation does not touch the recovery blocks. -/
theorem perform_prepare (memory : Memory) (offset : ℕ) :
    perform (call.prepare host) memory ⟨recoveryBuffer, offset⟩ = memory ⟨recoveryBuffer, offset⟩ := by
  rw [prepare]
  split
  · rename_i n_input_workers _
    have keeps : Acts ((List.range' 1 (n_input_workers - 1)).flatMap fun t =>
        [memset ⟨t, 0⟩ call.total_out_words]) ⟨recoveryBuffer, offset⟩ id := by
      apply Acts.keeps
      intro t member
      apply memset_outside
      rintro ⟨same, _⟩
      have pos := (List.mem_range'_1.mp member).1
      have zero : recoveryBuffer = t := same
      rw [recoveryBuffer] at zero
      omega
    rw [List.map_eq_flatMap]
    exact keeps memory
  · rfl

theorem offset_lt {r w : ℕ} (row : r < call.numRecovery) (word : w < call.blockSize64) :
    r * call.blockSize64 + w < call.numRecovery * call.blockSize64 := by
  have rows : (r + 1) * call.blockSize64 ≤ call.numRecovery * call.blockSize64 :=
    Nat.mul_le_mul_right _ row
  rw [Nat.succ_mul] at rows
  omega

/-- The sums of the parts are the sum of all inputs. -/
theorem sum_inputStart {n_input_workers : ℕ} (pos : 0 < n_input_workers) (r w : ℕ) :
    call.sum inputs coeff r w (call.inputStart n_input_workers 0) (call.inputStart n_input_workers 1) +
        ((List.range' 1 (n_input_workers - 1)).map fun t => call.sum inputs coeff r w
          (call.inputStart n_input_workers t) (call.inputStart n_input_workers (t + 1))).sum =
      call.sum inputs coeff r w 0 call.numInputs := by
  have whole := sum_parts (share_monotone call.numInputs n_input_workers) n_input_workers fun c =>
    inputs (c * call.blockSize64 + w) * coeff (r * call.numInputs + c)
  have start : 0 * call.numInputs / n_input_workers = 0 := inputStart_zero n_input_workers
  have stop : n_input_workers * call.numInputs / n_input_workers = call.numInputs :=
    inputStart_last pos
  rw [start, stop, Finset.sum_range_eq_add_Ico _ pos] at whole
  have later := List.sum_toFinset (fun t => call.sum inputs coeff r w
    (call.inputStart n_input_workers t) (call.inputStart n_input_workers (t + 1)))
    (List.nodup_range' (s := 1) (n := n_input_workers - 1))
  rw [List.toFinset_range'_1, Nat.add_sub_of_le pos] at later
  rw [← later]
  exact whole

/-- A call leaves the product in each word of the recovery blocks. -/
theorem ComputeRecoveryBlocksWithCoeff_word {memory last : Memory} (some : call.numInputs ≠ 0)
    (called : call.ComputeRecoveryBlocksWithCoeff host inputs coeff memory last) {r w : ℕ}
    (row : r < call.numRecovery) (word : w < call.blockSize64) :
    last ⟨recoveryBuffer, r * call.blockSize64 + w⟩ =
      (if call.accumulate then memory ⟨recoveryBuffer, r * call.blockSize64 + w⟩ else 0) +
        call.sum inputs coeff r w 0 call.numInputs := by
  unfold ComputeRecoveryBlocksWithCoeff at called
  rw [if_neg (by omega)] at called
  obtain ⟨joined, interleaved, rfl⟩ := called
  cases path : call.decomposition host with
  | single =>
    have empty : call.reduction host = [] := by rw [reduction, path]
    have box : singleBox call (0, 0) = Option.some ⟨recoveryBuffer, 0, call.numRecovery, 0,
      call.blockSize64, 0, call.numInputs⟩ := if_pos rfl
    rw [empty, perform_nil, ← @perform_prepare call host memory]
    exact (singleBox_divides path).joined_inside interleaved box
      ⟨⟨Nat.zero_le _, row⟩, Nat.zero_le _, word⟩
  | blocks =>
    have empty : call.reduction host = [] := by rw [reduction, path]
    obtain ⟨label, ⟨box, found, writes, _⟩, _⟩ :=
      (blockBox_divides path).once r row 0 (Nat.pos_of_ne_zero some) w word
    have words := (blockBox_divides path).joined_inside interleaved found writes
    obtain ⟨_, rfl⟩ := blockBox_some found
    rw [empty, perform_nil, ← @perform_prepare call host memory]
    exact words
  | inputs n_input_workers =>
    obtain ⟨fresh, several, enough, words⟩ := inputWorkers_some path
    have pos : 0 < n_input_workers := by omega
    have parts : ∀ t < n_input_workers, joined ⟨t, r * call.blockSize64 + w⟩ =
        call.sum inputs coeff r w (call.inputStart n_input_workers t)
          (call.inputStart n_input_workers (t + 1)) := by
      intro t below
      have box : inputBox call n_input_workers (t, 0) = Option.some ⟨t, 0, call.numRecovery,
        0, call.blockSize64, call.inputStart n_input_workers t,
        call.inputStart n_input_workers (t + 1)⟩ := if_pos ⟨below, rfl⟩
      have inside := (inputBox_divides path).joined_inside interleaved box
        (⟨⟨Nat.zero_le _, row⟩, Nat.zero_le _, word⟩ : Box.writes _ r w)
      rw [if_neg (by norm_num), zero_add] at inside
      exact inside
    have scratch : ∀ t ∈ List.range' 1 (n_input_workers - 1), t ≠ recoveryBuffer := by
      intro t member
      have pos := (List.mem_range'_1.mp member).1
      rw [recoveryBuffer]
      omega
    have reduced : call.reduction host = (List.range' 1 (n_input_workers - 1)).flatMap fun t =>
        if call.inputStart n_input_workers t < call.inputStart n_input_workers (t + 1) then
          xor_buffer ⟨recoveryBuffer, 0⟩ ⟨t, 0⟩ call.total_out_words
        else [] := by
      rw [reduction, path]
    have terms : ((List.range' 1 (n_input_workers - 1)).map fun t =>
        if call.inputStart n_input_workers t < call.inputStart n_input_workers (t + 1) ∧
          r * call.blockSize64 + w < call.total_out_words then
            joined ⟨t, r * call.blockSize64 + w⟩ else 0) =
        (List.range' 1 (n_input_workers - 1)).map fun t => call.sum inputs coeff r w
          (call.inputStart n_input_workers t) (call.inputStart n_input_workers (t + 1)) := by
      apply List.map_congr_left
      intro t member
      have bounds := List.mem_range'_1.mp member
      rw [if_pos ⟨inputStart_lt pos enough t, words ▸ offset_lt row word⟩]
      exact parts t (by omega)
    rw [reduced, perform_reduction _ _ scratch, terms, fresh, if_neg (by norm_num), zero_add,
      recoveryBuffer, parts 0 pos]
    exact sum_inputStart pos r w

/-- The words behind the recovery blocks keep their values. -/
theorem ComputeRecoveryBlocksWithCoeff_behind {memory last : Memory}
    (called : call.ComputeRecoveryBlocksWithCoeff host inputs coeff memory last) {offset : ℕ}
    (behind : call.numRecovery * call.blockSize64 ≤ offset) :
    last ⟨recoveryBuffer, offset⟩ = memory ⟨recoveryBuffer, offset⟩ := by
  unfold ComputeRecoveryBlocksWithCoeff at called
  split at called
  · rw [called]
  · obtain ⟨joined, interleaved, rfl⟩ := called
    have outside : ∀ accumulate boxes, call.Divides host accumulate boxes → ∀ label,
        (⟨recoveryBuffer, offset⟩ : Address) ∉ Divides.labelRegion call boxes label := by
      rintro accumulate boxes divides label ⟨box, found, r, w, writes, same⟩
      have bounded := divides.bounded label box found
      have rows := divides.rows label box found
      have inside := @offset_lt call r w (lt_of_lt_of_le writes.1.2 rows)
        (lt_of_lt_of_le writes.2.2 bounded)
      rw [Address.mk.injEq] at same
      omega
    have kept : ∀ accumulate boxes, call.Divides host accumulate boxes →
        joined ⟨recoveryBuffer, offset⟩ = memory ⟨recoveryBuffer, offset⟩ := by
      intro accumulate boxes divides
      rw [divides.joined_outside interleaved (outside accumulate boxes divides), perform_prepare]
    cases path : call.decomposition host with
    | single =>
      have empty : call.reduction host = [] := by rw [reduction, path]
      rw [empty, perform_nil, kept _ _ (singleBox_divides path)]
    | blocks =>
      have empty : call.reduction host = [] := by rw [reduction, path]
      rw [empty, perform_nil, kept _ _ (blockBox_divides path)]
    | inputs n_input_workers =>
      obtain ⟨_, _, _, words⟩ := inputWorkers_some path
      have scratch : ∀ t ∈ List.range' 1 (n_input_workers - 1), t ≠ recoveryBuffer := by
        intro t member
        have pos := (List.mem_range'_1.mp member).1
        rw [recoveryBuffer]
        omega
      have reduced : call.reduction host = (List.range' 1 (n_input_workers - 1)).flatMap fun t =>
          if call.inputStart n_input_workers t < call.inputStart n_input_workers (t + 1) then
            xor_buffer ⟨recoveryBuffer, 0⟩ ⟨t, 0⟩ call.total_out_words
          else [] := by
        rw [reduction, path]
      have terms : ((List.range' 1 (n_input_workers - 1)).map fun t =>
          if call.inputStart n_input_workers t < call.inputStart n_input_workers (t + 1) ∧
            offset < call.total_out_words then joined ⟨t, offset⟩ else 0) =
          (List.range' 1 (n_input_workers - 1)).map fun _ => 0 := by
        apply List.map_congr_left
        intro t _
        rw [if_neg]
        omega
      rw [reduced, perform_reduction _ _ scratch, terms, kept _ _ (inputBox_divides path)]
      simp

/-- Every product of a call is made by one worker. -/
theorem multiplies_once {r c w : ℕ} (row : r < call.numRecovery) (input : c < call.numInputs)
    (word : w < call.blockSize64) :
    ∃! label, ∃ range, call.ranges host label = some range ∧
      range.multiplies (r * call.blockSize64 + w) (r * call.numInputs + c)
        (c * call.blockSize64 + w) := by
  cases path : call.decomposition host with
  | single => exact (singleBox_divides path).multiplies_once row input word
  | inputs n_input_workers => exact (inputBox_divides path).multiplies_once row input word
  | blocks => exact (blockBox_divides path).multiplies_once row input word

end Whole

/-! ## The Cauchy product -/

variable (firstInput firstRecovery : BitVec 64)

/-- The parameters of the matrix of a call. -/
def key : CoeffCacheKey := ⟨call.numInputs, call.numRecovery, firstInput, firstRecovery⟩

/-- The Cauchy product of the inputs for a word of a recovery block. -/
def cauchyProduct (inputs : Words) (r w : ℕ) : Gf64 :=
  ∑ c ∈ Finset.range call.numInputs,
    ((call.key firstInput firstRecovery).inputPoint c +
      (call.key firstInput firstRecovery).recoveryPoint r)⁻¹ * inputs (c * call.blockSize64 + w)

variable {call host firstInput firstRecovery} {inputs coeff : Words}

/-- With the matrix of disjoint ranges the sum is the Cauchy product. -/
theorem sum_eq_cauchyProduct (holds : (call.key firstInput firstRecovery).Holds coeff)
    (disjoint : ∀ c < call.numInputs, ∀ r < call.numRecovery,
      (call.key firstInput firstRecovery).inputPoint c ≠
        (call.key firstInput firstRecovery).recoveryPoint r) {r : ℕ}
    (row : r < call.numRecovery) (w : ℕ) :
    call.sum inputs coeff r w 0 call.numInputs =
      call.cauchyProduct firstInput firstRecovery inputs r w := by
  rw [sum, cauchyProduct, ← Finset.range_eq_Ico]
  apply Finset.sum_congr rfl
  intro c member
  have input := Finset.mem_range.mp member
  have entry : coeff (r * call.numInputs + c) =
      (call.key firstInput firstRecovery).entry r c := holds r row c input
  have nonzero : (call.key firstInput firstRecovery).inputPoint c +
      (call.key firstInput firstRecovery).recoveryPoint r ≠ 0 := by
    rw [ne_eq, CharTwo.add_eq_zero]
    exact disjoint c input r row
  rw [entry, mul_comm]
  congr 1
  exact if_neg nonzero

end RecoveryCall

/-- A machine with one processor. -/
def oneProcessor : EngineHost where
  groupEnv := 0
  kGroupEnv := 0
  fengerThreadsEnv := 0
  avx2 := false
  effectiveCpuCount := 1
  effectiveCpuCount_pos := Nat.one_pos
  l3PerCluster := 0
  inputDecompScratchCap := 0
  alignAlloc := fun _ => true

end Par3
