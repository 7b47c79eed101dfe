import Par3.CoefficientMatrix
import Par3.RecoveryWorker

/-!
# Recovery blocks

The recovery blocks are the products of the matrix and the input blocks. One worker makes all of
them, or the inputs are divided among workers with a buffer each, which are added up at the end,
or the recovery blocks and the words of each block are divided among workers. The memory that a
call leaves behind is given for each order in which the steps of its workers can happen.
-/

namespace Par3

open Interleaving

namespace EngineHost

variable (host : EngineHost)

/-- The value of an environment variable, when it is from 1 to 256. -/
def parseGroupSize (value : ℤ) : ℕ := if value < 1 ∨ 256 < value then 0 else value.toNat

def groupSize (value : ℤ) : ℕ :=
  if 0 < parseGroupSize value then parseGroupSize value else if host.avx2 then 16 else 12

/-- `GetGroupSize()` -/
def GetGroupSize : ℕ := host.groupSize host.groupEnv

/-- `GetKGroupSize()` -/
def GetKGroupSize : ℕ := host.groupSize host.kGroupEnv

theorem groupSize_pos (value : ℤ) : 0 < host.groupSize value := by
  unfold groupSize
  split
  · assumption
  · split
    · norm_num
    · norm_num

/-- The number of threads that a call asks for, or one for each processor. -/
def threads (numThreads : ℤ) : ℕ :=
  if numThreads ≤ 0 then host.effectiveCpuCount else numThreads.toNat

/-- So many inputs fit the cache. -/
def tileSize (blockSize64 : ℕ) : ℕ :=
  let bytesPerBlock := blockSize64 * 8
  if 0 < bytesPerBlock ∧ 0 < host.l3PerCluster then
    let tileSize := min (host.l3PerCluster / bytesPerBlock) 256
    if tileSize = 0 then 1 else tileSize
  else 256

end EngineHost

/-- The buffer with the recovery blocks. Worker `t` has the scratch buffer `t`. -/
def recoveryBuffer : ℕ := 0

/-- One word of a buffer is added to one of another. -/
def xorWord (dst src : Address) (i : ℕ) : Step Address Gf64 :=
  fun memory => Function.update memory (dst.plus i) (memory (dst.plus i) + memory (src.plus i))

/-- Four words a round, then those that are left. -/
def xor_buffer (dst src : Address) (count : ℕ) : List (Step Address Gf64) :=
  ((strided 0 (count - 3) 4).flatMap fun i =>
      [xorWord dst src (i + 0), xorWord dst src (i + 1), xorWord dst src (i + 2),
        xorWord dst src (i + 3)]) ++
    (List.range' (count / 4 * 4) (count % 4)).map (xorWord dst src)

/-- The rounds and the rest are all words in order. -/
theorem xor_buffer_eq (dst src : Address) (count : ℕ) :
    xor_buffer dst src count = (List.range count).map (xorWord dst src) := by
  have general : ∀ left i, left = count - i → 4 ∣ i → i ≤ count / 4 * 4 →
      ((strided i (count - 3) 4).flatMap fun i =>
        [xorWord dst src (i + 0), xorWord dst src (i + 1), xorWord dst src (i + 2),
          xorWord dst src (i + 3)]) ++
        (List.range' (count / 4 * 4) (count % 4)).map (xorWord dst src) =
      (List.range' i left).map (xorWord dst src) := by
    intro left
    induction left using Nat.strong_induction_on with
    | _ left ih =>
      intro i length aligned bound
      by_cases more : i < count - 3
      · have four : left = left - 4 + 1 + 1 + 1 + 1 := by omega
        have later := ih (left - 4) (by omega) (i + 4) (by omega) (by omega) (by omega)
        rw [strided_of_lt (by norm_num) more, List.flatMap_cons, List.append_assoc, later, four]
        rfl
      · obtain rfl : i = count / 4 * 4 := by omega
        have rest : left = count % 4 := by omega
        rw [strided_of_le (by omega), rest]
        rfl
  rw [xor_buffer, general count 0 rfl (Dvd.intro 0 rfl) (Nat.zero_le _), List.range_eq_range']

/-- The words of one buffer are added to those of another. -/
theorem perform_xor_buffer {dst src : Address} (apart : dst.buffer ≠ src.buffer) (count : ℕ)
    (memory : Memory) (address : Address) :
    perform (xor_buffer dst src count) memory address =
      if address.within dst count then
        memory address + memory (src.plus (address.offset - dst.offset))
      else memory address := by
  rw [xor_buffer_eq]
  induction count generalizing address with
  | zero =>
    rw [if_neg]
    · rfl
    · rintro ⟨_, lower, upper⟩
      omega
  | succ count ih =>
    rw [List.range_succ, List.map_append, perform_append, List.map_singleton, perform_cons,
      perform_nil, xorWord, Function.update_apply]
    have source : ¬ (src.plus count).within dst count := fun here => apart here.1.symm
    have fresh : ¬ (dst.plus count).within dst count := by
      rintro ⟨_, _, upper⟩
      exact absurd upper (lt_irrefl _)
    by_cases last : address = dst.plus count
    · have here : address.within dst (count + 1) := by
        rw [last]
        refine ⟨rfl, Nat.le_add_right _ _, ?_⟩
        simp only [Address.plus_offset]
        omega
      have offset : address.offset - dst.offset = count := by
        rw [last, Address.plus_offset, Nat.add_sub_cancel_left]
      rw [if_pos last, if_pos here, ih, ih, if_neg fresh,
        if_neg source, offset, last]
    · have same : address.within dst (count + 1) ↔ address.within dst count := by
        constructor
        · rintro ⟨buffer, lower, upper⟩
          refine ⟨buffer, lower, ?_⟩
          by_contra behind
          apply last
          have offset : address.offset = (dst.plus count).offset := by
            rw [Address.plus_offset]
            omega
          exact Address.ext buffer offset
        · rintro ⟨buffer, lower, upper⟩
          exact ⟨buffer, lower, by omega⟩
      rw [if_neg last, ih]
      simp only [same]

/-- By one worker, by inputs among so many workers, or by recovery blocks and words. -/
inductive Decomposition where
  | single
  | inputs (n_input_workers : ℕ)
  | blocks
deriving DecidableEq

/-- The arguments of a call, but for the arrays. -/
structure RecoveryCall where
  numInputs : ℕ
  numRecovery : ℕ
  blockSize64 : ℕ
  numThreads : ℤ
  accumulate : Bool

namespace RecoveryCall

variable (call : RecoveryCall) (host : EngineHost)

/-- The one range of a single worker. -/
def singleRange : WorkerRange where
  out_start := ⟨recoveryBuffer, 0⟩
  num_out := call.numRecovery
  total_num_out := call.numRecovery
  in_start := 0
  num_in := call.numInputs
  coeff_row_start := 0
  coeff_stride := call.numInputs
  block_size64 := call.blockSize64
  block_stride64 := call.blockSize64
  tile_size := host.tileSize call.blockSize64
  accumulate := call.accumulate

/-- `numRecovery * blockSize64`, or zero when the product is larger than `SIZE_MAX`. -/
def total_out_words : ℕ :=
  if 0 < call.numRecovery ∧ SIZE_MAX / call.numRecovery < call.blockSize64 then 0
  else call.numRecovery * call.blockSize64

/-- The size of a scratch buffer in words or in bytes is larger than `SIZE_MAX`. -/
def overflow : Bool :=
  (0 < call.numRecovery ∧ SIZE_MAX / call.numRecovery < call.blockSize64) ∨
    SIZE_MAX / 8 < call.total_out_words

def total_out_bytes : ℕ := if call.overflow then 0 else call.total_out_words * 8

/-- So many workers have inputs and, but for the first, a buffer that the scratch cap allows. -/
def n_input_workers : ℕ :=
  let max_extra_workers :=
    if ¬ call.overflow ∧ 0 < call.total_out_bytes then
      host.inputDecompScratchCap / call.total_out_bytes
    else 0
  let max_scratch_workers := 1 + max_extra_workers
  min (min (host.threads call.numThreads) max_scratch_workers) call.numInputs

/-- How many workers the inputs are divided among. They are not divided when the blocks are added
to, when the workers would not be more than the recovery blocks, or when a buffer cannot be
allocated. -/
def inputWorkers : Option ℕ :=
  if ¬ call.accumulate ∧ ¬ call.overflow ∧ call.numRecovery < call.n_input_workers host ∧
      2 ≤ call.n_input_workers host ∧
      (List.range' 1 (call.n_input_workers host - 1)).all host.alignAlloc then
    some (call.n_input_workers host)
  else none

/-- `(t * numInputs) / n_input_workers` -/
def inputStart (n_input_workers t : ℕ) : ℕ := t * call.numInputs / n_input_workers

/-- The range of a worker that gets a part of the inputs, for all recovery blocks. -/
def inputRange (n_input_workers t : ℕ) : Option WorkerRange :=
  let in_start := call.inputStart n_input_workers t
  let in_end := call.inputStart n_input_workers (t + 1)
  let count_in := in_end - in_start
  if count_in = 0 then none
  else some {
    out_start := if t = 0 then ⟨recoveryBuffer, 0⟩ else ⟨t, 0⟩
    num_out := call.numRecovery
    total_num_out := call.numRecovery
    in_start := in_start * call.blockSize64
    num_in := count_in
    coeff_row_start := in_start
    coeff_stride := call.numInputs
    block_size64 := call.blockSize64
    block_stride64 := call.blockSize64
    tile_size := host.tileSize call.blockSize64
    accumulate := if t = 0 then call.accumulate else false }

/-- The recovery blocks are divided among so many workers. -/
def SR : ℕ :=
  let SR := min (host.threads call.numThreads) call.numRecovery
  if SR = 0 then 1 else SR

/-- The words of a block are divided among so many workers. -/
def SB : ℕ :=
  let block_bytes := call.blockSize64 * 8
  let min_slice_bytes := 64 * 1024
  if call.SR host < host.threads call.numThreads ∧ min_slice_bytes ≤ block_bytes ∧
      call.blockSize64 % 8 = 0 then
    let SB := min (host.threads call.numThreads / call.SR host) (block_bytes / min_slice_bytes)
    if SB = 0 then 1 else SB
  else 1

/-- `(wr * numRecovery) / SR` -/
def rowStart (wr : ℕ) : ℕ := wr * call.numRecovery / call.SR host

/-- `((wb * blockSize64) / SB) & ~7`, but the last part ends with the block. -/
def wordStart (wb : ℕ) : ℕ :=
  if wb = call.SB host then call.blockSize64
  else wb * call.blockSize64 / call.SB host / 8 * 8

/-- The range of a worker that gets some recovery blocks and some words of each. -/
def blockRange (wr wb : ℕ) : Option WorkerRange :=
  let r_start := call.rowStart host wr
  let r_end := call.rowStart host (wr + 1)
  let r_count := r_end - r_start
  let o_start := call.wordStart host wb
  let o_end := call.wordStart host (wb + 1)
  let o_words := if o_start < o_end then o_end - o_start else 0
  if r_count = 0 ∨ o_words = 0 then none
  else some {
    out_start := ⟨recoveryBuffer, r_start * call.blockSize64 + o_start⟩
    num_out := r_count
    total_num_out := call.numRecovery
    in_start := o_start
    num_in := call.numInputs
    coeff_row_start := r_start * call.numInputs
    coeff_stride := call.numInputs
    block_size64 := o_words
    block_stride64 := call.blockSize64
    tile_size := host.tileSize call.blockSize64
    accumulate := call.accumulate }

/-- How the work of a call is divided, `s_last_decomposition_path`. -/
def decomposition : Decomposition :=
  if host.threads call.numThreads = 1 then .single
  else
    match call.inputWorkers host with
    | some n_input_workers => .inputs n_input_workers
    | none => .blocks

/-- The ranges of the workers of a call. -/
def ranges (label : ℕ × ℕ) : Option WorkerRange :=
  match call.decomposition host with
  | .single => if label = (0, 0) then some (call.singleRange host) else none
  | .inputs n_input_workers =>
    if label.1 < n_input_workers ∧ label.2 = 0 then call.inputRange host n_input_workers label.1
    else none
  | .blocks =>
    if label.1 < call.SR host ∧ label.2 < call.SB host then call.blockRange host label.1 label.2
    else none

/-- New scratch buffers are zero. -/
def prepare : List (Step Address Gf64) :=
  match call.decomposition host with
  | .inputs n_input_workers =>
    (List.range' 1 (n_input_workers - 1)).map fun t =>
      memset ⟨t, 0⟩ call.total_out_words
  | _ => []

/-- The scratch buffers of the workers that had inputs are added to the recovery blocks. -/
def reduction : List (Step Address Gf64) :=
  match call.decomposition host with
  | .inputs n_input_workers =>
    (List.range' 1 (n_input_workers - 1)).flatMap fun t =>
      if call.inputStart n_input_workers t < call.inputStart n_input_workers (t + 1) then
        xor_buffer ⟨recoveryBuffer, 0⟩ ⟨t, 0⟩ call.total_out_words
      else []
  | _ => []

/-- The steps of a worker of the call. -/
def worker (inputs coeff : Words) (label : ℕ × ℕ) : List (Step Address Gf64) :=
  match call.ranges host label with
  | some range => range.WorkerThread inputs coeff host.GetKGroupSize host.GetGroupSize
  | none => []

/-- What a call may leave in the memory. -/
def ComputeRecoveryBlocksWithCoeff (inputs coeff : Words) (memory last : Memory) : Prop :=
  if call.numInputs = 0 ∨ call.numRecovery = 0 then last = memory
  else
    ∃ joined, Interleaved (call.worker host inputs coeff)
      (perform (call.prepare host) memory) joined ∧
      last = perform (call.reduction host) joined

end RecoveryCall

end Par3
