import Par3.RecoveryDispatch
import Par3.RightHandSide

/-!
# What the dispatched kernels compute

Each entry adds the products of the inputs and their coefficients to what is in the outputs, or to zero.
Chunks of the inputs have indices of their own, and their products are those of the same inputs in one
call, so that the choice of the kernel and the limits of the environment cannot be seen in the outputs.
-/

namespace Par3

/-- The words of a part of a buffer that begins at a word. -/
theorem wordAt_slice (buf : Buffer) {start stop word : ℕ} (inside : 8 * start + 8 * word + 8 ≤ stop) :
    wordAt (slice buf (8 * start) stop) word = wordAt buf (start + word) := by
  rw [wordAt, wordAt, slice_slice _ (by omega), Nat.mul_add, Nat.add_assoc]

namespace KernelArgs

variable (args : KernelArgs)

/-- What an input adds to a word of a recovery block. -/
def term (inputs : Buffer) (r w c : ℕ) : Gf64 :=
  wordAt inputs (c * args.blockSize64 + w) * cauchyCoefficient args.firstInput args.firstRecovery r c

def product (inputs : Buffer) (r w : ℕ) : Gf64 := ∑ c ∈ Finset.range args.numInputs, args.term inputs r w c

/-- The outputs, cleared for the recovery blocks. -/
def cleared (outputs : Words) : Words := fun i => if i < args.outputWords then 0 else outputs i

/-- The products are added to the recovery blocks. -/
def Added (inputs : Buffer) (before last : Words) : Prop :=
  ∀ r < args.numRecovery, ∀ w < args.blockSize64,
    last (r * args.blockSize64 + w) = before (r * args.blockSize64 + w) + args.product inputs r w

variable {args} in
/-- The recovery blocks are determined by what is added. -/
theorem Added.unique {inputs : Buffer} {before last other : Words} (one : args.Added inputs before last)
    (two : args.Added inputs before other) {i : ℕ} (inside : i < args.outputWords) : last i = other i := by
  have pos : 0 < args.blockSize64 := by
    by_contra none
    rw [outputWords, Nat.eq_zero_of_not_pos none, Nat.mul_zero] at inside
    exact absurd inside (Nat.not_lt_zero i)
  have row : i / args.blockSize64 < args.numRecovery := Nat.div_lt_of_lt_mul (by rwa [Nat.mul_comm])
  have word : i % args.blockSize64 < args.blockSize64 := Nat.mod_lt _ pos
  have first := one _ row _ word
  have second := two _ row _ word
  rw [Nat.div_add_mod'] at first second
  rw [first, second]

/-- Indices are exact in doubles, and none is that of an input and of a recovery block. -/
structure Separate : Prop where
  inputs : args.firstInput + args.numInputs ≤ 2 ^ 53
  recovery : args.firstRecovery + args.numRecovery ≤ 2 ^ 53
  apart : args.firstInput + args.numInputs ≤ args.firstRecovery ∨
    args.firstRecovery + args.numRecovery ≤ args.firstInput

/-- Arguments that no entry turns down: the counts and the size are positive, the counts fit into 31
bits, and the buffers hold their blocks. -/
structure Accepted (inputs : Buffer) : Prop where
  someInputs : 0 < args.numInputs
  someRecovery : 0 < args.numRecovery
  inputs_small : args.numInputs < 2 ^ 31
  recovery_small : args.numRecovery < 2 ^ 31
  size : 0 < args.blockSize
  words : 8 ∣ args.blockSize
  length : inputs.length = args.numInputs * args.blockSize
  room : args.numRecovery * args.blockSize ≤ args.outputsLength

variable {args}

/-- Counts of 31 bits come through as they are. -/
theorem narrow_eq (inputs : args.numInputs < 2 ^ 31) (recovery : args.numRecovery < 2 ^ 31) :
    args.narrow = args := by
  have kept {value : ℕ} (small : value < 2 ^ 31) : (int32Argument value).toNat = value := by
    rw [int32Argument, BitVec.toInt_ofNat', Int.bmod_eq_of_le (by omega) (by omega), Int.toNat_natCast]
  rw [narrow, kept inputs, kept recovery]

namespace Accepted

variable {inputs : Buffer} (accepted : args.Accepted inputs)

include accepted

theorem checkBlockSize_ok : args.checkBlockSize = .ok () := by
  have size := accepted.size
  have multiple := Nat.mod_eq_zero_of_dvd accepted.words
  rw [checkBlockSize, if_neg (by omega)]

theorem checkCounts_ok : args.checkCounts = .ok () := by
  rw [checkCounts, if_neg accepted.someInputs.ne', if_neg accepted.someRecovery.ne']

theorem checkBuffers_ok : args.checkBuffers inputs.length = .ok () := by
  have rows := (Nat.le_div_iff_mul_le accepted.size).mpr accepted.room
  rw [checkBuffers, accepted.length, Nat.mul_div_cancel _ accepted.size, if_neg (Nat.lt_irrefl _),
    if_neg (Nat.not_lt.mpr rows)]

theorem checkNarrow_ok : RecoveryEngine.checkNarrow args inputs = .ok () := by
  rw [RecoveryEngine.checkNarrow, narrow_eq accepted.inputs_small accepted.recovery_small,
    accepted.checkCounts_ok, accepted.checkBlockSize_ok]
  exact accepted.checkBuffers_ok

theorem checkFenger_ok : RecoveryEngine.checkFenger args inputs = .ok () := by
  rw [RecoveryEngine.checkFenger, accepted.checkBlockSize_ok]
  exact accepted.checkBuffers_ok

end Accepted

/-- A word of the recovery blocks. -/
theorem word_inside {r w : ℕ} (row : r < args.numRecovery) (word : w < args.blockSize64) :
    r * args.blockSize64 + w < args.outputWords := by
  have rows : (r + 1) * args.blockSize64 ≤ args.numRecovery * args.blockSize64 := Nat.mul_le_mul_right _ row
  rw [Nat.succ_mul] at rows
  rw [outputWords]
  omega

theorem Separate.firstInput (separate : args.Separate) :
    (BitVec.ofNat 64 args.firstInput).toNat = args.firstInput := by
  have bound := separate.inputs
  rw [BitVec.toNat_ofNat, Nat.mod_eq_of_lt (by omega)]

theorem Separate.firstRecovery (separate : args.Separate) :
    (BitVec.ofNat 64 args.firstRecovery).toNat = args.firstRecovery := by
  have bound := separate.recovery
  rw [BitVec.toNat_ofNat, Nat.mod_eq_of_lt (by omega)]

/-- What the engine leaves behind, for the outputs. -/
theorem added_of_finished {inputs : Buffer} {accumulate : Bool} {memory result : Memory}
    (separate : args.Separate)
    (finished : (args.recoveryCall accumulate).Finished (BitVec.ofNat 64 args.firstInput)
      (BitVec.ofNat 64 args.firstRecovery) (wordAt inputs) memory result) :
    args.Added inputs
      (if accumulate then load memory ⟨recoveryBuffer, 0⟩ else args.cleared (load memory ⟨recoveryBuffer, 0⟩))
      (load result ⟨recoveryBuffer, 0⟩) := by
  intro r row w word
  have words := finished.words r row w word
  have sum : (args.recoveryCall accumulate).entrySum (BitVec.ofNat 64 args.firstInput)
      (BitVec.ofNat 64 args.firstRecovery) (wordAt inputs) r w = args.product inputs r w := by
    refine Finset.sum_congr rfl fun c _ => congrArg (wordAt inputs (c * args.blockSize64 + w) * ·) ?_
    rw [CoeffCacheKey.entry]
    exact congrArg₂ (fun input recovery => cauchyCoefficient input recovery r c)
      separate.firstInput separate.firstRecovery
  rw [sum] at words
  rw [load, Address.plus, Nat.zero_add]
  refine words.trans (congrArg (· + args.product inputs r w) ?_)
  cases accumulate
  · exact (if_pos (word_inside row word)).symm
  · refine (if_pos rfl).trans ?_
    rw [if_pos rfl, load, Address.plus, Nat.zero_add]
    rfl

/-- No recovery point is an input point. -/
theorem Separate.detected (separate : args.Separate)
    (small : args.numInputs ≤ SIZE_MAX ∧ args.numRecovery ≤ SIZE_MAX) :
    ¬ (args.fengerCall small).Undetected := by
  rintro ⟨-, -, -, r, row, c, input, same⟩
  have value := congrArg BitVec.toNat same
  have inputs := separate.inputs
  have recovery := separate.recovery
  have rows : r < args.numRecovery := row
  have columns : c < args.numInputs := input
  have apart := separate.apart
  simp only [fengerCall, ← BitVec.ofNat_add, BitVec.toNat_ofNat] at value
  rw [Nat.mod_eq_of_lt (by omega), Nat.mod_eq_of_lt (by omega)] at value
  omega

end KernelArgs

namespace RecoveryEngine

open KernelArgs

variable {engine : RecoveryEngine} {args : KernelArgs} {inputs : Buffer} {outputs last : Words}

/-! ## The entries -/

theorem computeFull_added {accumulate : Bool} (separate : args.Separate) (some : args.numInputs ≠ 0)
    (inputs_small : args.numInputs < 2 ^ 31) (recovery_small : args.numRecovery < 2 ^ 31)
    (computed : engine.computeFull args inputs accumulate outputs last) :
    args.Added inputs (if accumulate then outputs else args.cleared outputs) last := by
  obtain ⟨-, cache, after, memory, result, reachable, rfl, called, rfl⟩ := computed
  rw [narrow_eq inputs_small recovery_small] at called
  exact added_of_finished separate
    (RecoveryCall.ComputeRecoveryBlocks_finished some reachable.sound called)

theorem computeWithCoeff_added (separate : args.Separate) (some : args.numInputs ≠ 0)
    (computed : engine.computeWithCoeff args inputs outputs last) :
    args.Added inputs (args.cleared outputs) last := by
  obtain ⟨-, fresh, coeff, memory, result, built, rfl, called, rfl⟩ := computed
  have holds := CoeffCacheKey.BuildCauchyMatrix_holds built
  refine @added_of_finished args inputs false _ _ separate ⟨fun r row w word => ?_, fun offset behind =>
    RecoveryCall.ComputeRecoveryBlocksWithCoeff_behind called behind⟩
  have sums : (args.recoveryCall false).sum (wordAt inputs) coeff r w 0 args.numInputs =
      (args.recoveryCall false).entrySum (BitVec.ofNat 64 args.firstInput)
        (BitVec.ofNat 64 args.firstRecovery) (wordAt inputs) r w := by
    rw [RecoveryCall.sum, RecoveryCall.entrySum, ← Finset.range_eq_Ico]
    exact Finset.sum_congr rfl fun c member => congrArg _ (holds r row c (Finset.mem_range.mp member))
  rw [← sums]
  exact RecoveryCall.ComputeRecoveryBlocksWithCoeff_word some called row word

theorem computeBarycentric_added {accumulate : Bool} (separate : args.Separate) (some : args.numInputs ≠ 0)
    (inputs_small : args.numInputs < 2 ^ 31) (recovery_small : args.numRecovery < 2 ^ 31)
    (computed : engine.computeBarycentric args inputs accumulate outputs last) :
    args.Added inputs (if accumulate then outputs else args.cleared outputs) last := by
  obtain ⟨-, cache, memory, result, reachable, rfl, called, rfl⟩ := computed
  rw [narrow_eq inputs_small recovery_small] at called
  exact added_of_finished separate
    (RecoveryCall.ComputeRecoveryBlocksBarycentric_finished some reachable.sound called)

theorem computeFenger_added (separate : args.Separate) (some : args.numInputs ≠ 0)
    (computed : engine.computeFenger args inputs outputs last) :
    args.Added inputs (args.cleared outputs) last := by
  obtain ⟨-, small, cache, after, memory, result, reachable, rfl, called, rfl⟩ := computed
  by_cases nothing : args.numRecovery = 0 ∨ args.blockSize64 = 0
  · intro r row w word
    omega
  · exact @added_of_finished args inputs false _ _ separate (FengerCall.finished_of_called some
      (fun rows => nothing (.inl rows)) (fun words => nothing (.inr words)) (separate.detected small)
      reachable.sound called args.numThreads)

/-! ## Chunks -/

section Chunks

variable {k ci : ℕ} (length : inputs.length = args.numInputs * args.blockSize) (words : 8 ∣ args.blockSize)
  (size : 0 < args.blockSize) (more : ci * k < args.numInputs)

include length words

/-- The inputs of a chunk, up to the last one of all. -/
theorem chunkIn_eq : chunkIn inputs (k * args.blockSize) ci =
    slice inputs (8 * (ci * k * args.blockSize64))
      (8 * (min (ci * k + k) args.numInputs * args.blockSize64)) := by
  have whole : args.blockSize = 8 * args.blockSize64 := (Nat.mul_div_cancel' words).symm
  have start : ci * (k * args.blockSize) = 8 * (ci * k * args.blockSize64) := by
    rw [whole]
    ring
  have next : ci * (k * args.blockSize) + k * args.blockSize = (ci * k + k) * args.blockSize := by ring
  have stop : min (ci * (k * args.blockSize) + k * args.blockSize) inputs.length =
      8 * (min (ci * k + k) args.numInputs * args.blockSize64) := by
    rw [length, next, Nat.mul_min_mul_right]
    rw [whole]
    ring
  rw [chunkIn, stop, start]

theorem chunkIn_length : (chunkIn inputs (k * args.blockSize) ci).length =
    min k (args.numInputs - ci * k) * args.blockSize := by
  have whole : args.blockSize = 8 * args.blockSize64 := (Nat.mul_div_cancel' words).symm
  have stop : 8 * (min (ci * k + k) args.numInputs * args.blockSize64) ≤ inputs.length := by
    rw [length]
    rw [whole, Nat.mul_left_comm]
    exact Nat.mul_le_mul_right _ (Nat.min_le_right _ _)
  rw [chunkIn_eq length words, slice_length _ _ _ stop, ← Nat.mul_sub, ← Nat.sub_mul]
  rw [whole, Nat.mul_left_comm]
  congr 2
  omega

include size

theorem chunkArgs_numInputs : (chunkArgs args inputs (k * args.blockSize) ci).numInputs =
    min k (args.numInputs - ci * k) := by
  rw [chunkArgs, chunkIn_length length words, Nat.mul_div_cancel _ size]

include more

omit length words in
theorem chunkArgs_firstInput (separate : args.Separate) (inputs : Buffer) :
    (chunkArgs args inputs (k * args.blockSize) ci).firstInput = args.firstInput + ci * k := by
  have last := separate.inputs
  rw [chunkArgs]
  dsimp only
  rw [← Nat.mul_assoc, Nat.mul_div_cancel _ size, double_natCast _ (by omega), Int.toNat_natCast]

theorem chunkArgs_separate (separate : args.Separate) :
    (chunkArgs args inputs (k * args.blockSize) ci).Separate := by
  have number := @chunkArgs_numInputs args inputs k ci length words size
  have first := @chunkArgs_firstInput args k ci size more separate inputs
  have last := separate.inputs
  refine ⟨by rw [number, first]; omega, separate.recovery, ?_⟩
  rw [number, first]
  rcases separate.apart with before | behind
  · left
    dsimp only [chunkArgs]
    omega
  · right
    dsimp only [chunkArgs]
    omega

/-- The inputs of a chunk add what they add in one call. -/
theorem chunk_term (separate : args.Separate) (r : ℕ) {w c : ℕ} (word : w < args.blockSize64)
    (inside : c < min k (args.numInputs - ci * k)) :
    (chunkArgs args inputs (k * args.blockSize) ci).term (chunkIn inputs (k * args.blockSize) ci) r w c =
      args.term inputs r w (ci * k + c) := by
  have place : (ci * k + c + 1) * args.blockSize64 ≤ min (ci * k + k) args.numInputs * args.blockSize64 :=
    Nat.mul_le_mul_right _ (by omega)
  have offset : (ci * k + c) * args.blockSize64 + w =
      ci * k * args.blockSize64 + (c * args.blockSize64 + w) := by ring
  have next : (ci * k + c + 1) * args.blockSize64 =
      ci * k * args.blockSize64 + c * args.blockSize64 + args.blockSize64 := by ring
  have read := @wordAt_slice inputs (ci * k * args.blockSize64)
    (8 * (min (ci * k + k) args.numInputs * args.blockSize64)) (c * args.blockSize64 + w) (by omega)
  rw [KernelArgs.term, KernelArgs.term, chunkIn_eq length words, chunkArgs_firstInput size more separate, offset, ← read,
    cauchyCoefficient, cauchyCoefficient, Nat.add_assoc]
  rfl

theorem chunk_product (separate : args.Separate) (r : ℕ) {w : ℕ} (word : w < args.blockSize64) :
    (chunkArgs args inputs (k * args.blockSize) ci).product (chunkIn inputs (k * args.blockSize) ci) r w =
      ∑ c ∈ Finset.range (min k (args.numInputs - ci * k)), args.term inputs r w (ci * k + c) := by
  rw [KernelArgs.product, chunkArgs_numInputs length words size]
  exact Finset.sum_congr rfl fun c member =>
    chunk_term length words size more separate r word (Finset.mem_range.mp member)

omit more in
/-- After some chunks, the outputs hold the sums over their inputs. -/
theorem computeChunks_added (separate : args.Separate) (room : args.numRecovery * args.blockSize ≤ args.outputsLength)
    (k_pos : 0 < k) {turns : ℕ} (each : ∀ ci < turns, ci * k < args.numInputs)
    (computed : engine.computeChunks args inputs (k * args.blockSize) outputs turns last) :
    ∀ r < args.numRecovery, ∀ w < args.blockSize64, last (r * args.blockSize64 + w) =
      ∑ c ∈ Finset.range (min (turns * k) args.numInputs), args.term inputs r w c := by
  have cleared {r w : ℕ} (row : r < args.numRecovery) (word : w < args.blockSize64) :
      8 * (r * args.blockSize64 + w) < args.outputsLength := by
    have whole : 8 * args.blockSize64 = args.blockSize := Nat.mul_div_cancel' words
    have inside := word_inside row word
    have bytes : 8 * args.outputWords = args.numRecovery * args.blockSize := by
      rw [outputWords, Nat.mul_left_comm, whole]
    omega
  induction turns generalizing last with
  | zero =>
    obtain rfl := computed
    intro r row w word
    rw [Nat.zero_mul, Nat.zero_min, Finset.range_zero, Finset.sum_empty]
    exact if_pos (cleared row word)
  | succ ci ih =>
    obtain ⟨sum, chunkOut, earlier, chunk, rfl⟩ := computed
    have sums := ih (fun other below => each other (by omega)) earlier
    have more := each ci (Nat.lt_succ_self ci)
    have number := @chunkArgs_numInputs args inputs k ci length words size
    have added := computeFenger_added (chunkArgs_separate length words size more separate)
      (by rw [number]; omega) chunk
    intro r row w word
    have blank : (chunkArgs args inputs (k * args.blockSize) ci).cleared (fun _ => 0)
        (r * args.blockSize64 + w) = 0 := ite_self 0
    have out := added r row w word
    rw [chunk_product length words size more separate r word] at out
    have total : min ((ci + 1) * k) args.numInputs =
        min (ci * k) args.numInputs + min k (args.numInputs - ci * k) := by
      rw [Nat.succ_mul]
      omega
    have first : min (ci * k) args.numInputs = ci * k := by omega
    rw [xor_buffers, if_pos (cleared row word), sums r row w word, total, Finset.sum_range_add, first]
    refine congrArg (_ + ·) (out.trans ?_)
    rw [show (chunkArgs args inputs (k * args.blockSize) ci).blockSize64 = args.blockSize64 from rfl, blank,
      zero_add]

end Chunks

/-- A chunk has whole blocks, and at least one. -/
theorem chunks_of_route {env : DispatchEnv} {length bytes : ℕ}
    (chosen : env.route engine args length = .ok (.fengerChunks bytes)) :
    ∃ k, 0 < k ∧ 0 < args.blockSize ∧ bytes = k * args.blockSize := by
  rw [DispatchEnv.route] at chosen
  split at chosen
  · cases chosen
  · split at chosen
    · split at chosen
      · split at chosen
        · cases chosen
        · rename_i fits
          have same := DispatchRoute.fengerChunks.inj (Except.ok.inj chosen)
          refine ⟨_, Nat.div_pos (by omega) (by omega), by omega, same.symm⟩
      · cases chosen
    · split at chosen
      · cases chosen
      · split at chosen
        · cases chosen
        · cases chosen

/-- Whichever kernel is chosen, and in however many chunks, each recovery block becomes the sum of all
inputs with their coefficients. -/
theorem dispatchRecovery_added {env : DispatchEnv} (separate : args.Separate)
    (accepted : args.Accepted inputs)
    (computed : engine.dispatchRecovery args inputs env outputs last) :
    args.Added inputs (args.cleared outputs) last := by
  obtain ⟨route, chosen, computed⟩ := computed
  have some := accepted.someInputs.ne'
  have length := accepted.length
  have words := accepted.words
  cases route with
  | fenger => exact computeFenger_added separate some computed
  | fengerChunks chunkSizeBytes =>
    obtain ⟨k, k_pos, size, rfl⟩ : ∃ k, 0 < k ∧ 0 < args.blockSize ∧ chunkSizeBytes = k * args.blockSize :=
      chunks_of_route chosen
    have pos : 0 < k * args.blockSize := Nat.mul_pos k_pos size
    have quotient := Nat.div_add_mod' (inputs.length + k * args.blockSize - 1) (k * args.blockSize)
    have less := Nat.mod_lt (inputs.length + k * args.blockSize - 1) pos
    rw [RecoveryEngine.compute] at computed
    generalize (inputs.length + k * args.blockSize - 1) / (k * args.blockSize) = turns at computed quotient
    have some_bytes : 0 < inputs.length := by
      rw [length]
      exact Nat.mul_pos (Nat.pos_of_ne_zero some) size
    have each : ∀ ci < turns, ci * k < args.numInputs := by
      intro ci inside
      have below : (ci + 1) * (k * args.blockSize) ≤ turns * (k * args.blockSize) :=
        Nat.mul_le_mul_right _ inside
      rw [Nat.succ_mul] at below
      have bytes : ci * k * args.blockSize < args.numInputs * args.blockSize := by
        rw [Nat.mul_assoc, ← length]
        omega
      exact Nat.lt_of_mul_lt_mul_right bytes
    have all : args.numInputs ≤ turns * k := by
      have bytes : args.numInputs * args.blockSize ≤ turns * k * args.blockSize := by
        rw [Nat.mul_assoc, ← length]
        omega
      exact Nat.le_of_mul_le_mul_right bytes size
    have sums := computeChunks_added length words size separate accepted.room k_pos each computed
    intro r row w word
    rw [sums r row w word, Nat.min_eq_right all, cleared, if_pos (word_inside row word), zero_add, product]
  | barycentric =>
    exact computeBarycentric_added separate some accepted.inputs_small accepted.recovery_small computed
  | full => exact computeFull_added separate some accepted.inputs_small accepted.recovery_small computed

/-! ## Returning -/

/-- The entries of the outputs as the memory of a call. -/
def memoryOf (outputs : Words) : Memory := fun address => outputs address.offset

theorem load_memoryOf (outputs : Words) : load (memoryOf outputs) ⟨recoveryBuffer, 0⟩ = outputs := by
  funext i
  rw [load, memoryOf, Address.plus, Nat.zero_add]

theorem computeFull_exists (engine : RecoveryEngine) (accepted : args.Accepted inputs) (accumulate : Bool)
    (outputs : Words) : ∃ last, engine.computeFull args inputs accumulate outputs last := by
  obtain ⟨result, after, called⟩ := RecoveryCall.ComputeRecoveryBlocks_exists
    (args.narrow.recoveryCall accumulate) (BitVec.ofNat 64 args.firstInput)
    (BitVec.ofNat 64 args.firstRecovery) engine.host (wordAt inputs) .empty (memoryOf outputs)
  exact ⟨_, accepted.checkNarrow_ok, .empty, after, _, result, .start, load_memoryOf outputs, called, rfl⟩

theorem computeBarycentric_exists (engine : RecoveryEngine) (accepted : args.Accepted inputs)
    (accumulate : Bool) (outputs : Words) :
    ∃ last, engine.computeBarycentric args inputs accumulate outputs last := by
  obtain ⟨result, called⟩ := RecoveryCall.ComputeRecoveryBlocksBarycentric_exists
    (args.narrow.recoveryCall accumulate) (BitVec.ofNat 64 args.firstInput)
    (BitVec.ofNat 64 args.firstRecovery) engine.host (wordAt inputs) .empty (memoryOf outputs)
  exact ⟨_, accepted.checkNarrow_ok, .empty, _, result, .start, load_memoryOf outputs, called, rfl⟩

/-- The padded count is less than twice the count. -/
theorem paddedCount_le {count turns first padded : ℕ} (least : first ≤ 2 * count)
    (found : paddedCount count turns first = some padded) : padded ≤ 2 * count := by
  induction turns generalizing first with
  | zero =>
    obtain rfl := Option.some.inj found
    exact least
  | succ turns ih =>
    rw [paddedCount] at found
    split at found
    · split at found
      · cases found
      · refine ih ?_ found
        rw [Nat.shiftLeft_eq]
        omega
    · obtain rfl := Option.some.inj found
      exact least

theorem treeFits_of_le {points : ℕ} (small : points ≤ 2 ^ 32) : FengerCall.treeFits points := by
  have levels : points.log2 + 1 ≤ 33 := by
    by_cases none : points = 0
    · rw [none]
      decide
    · have bound := Nat.log2_lt none |>.mpr (show points < 2 ^ 33 by omega)
      omega
  have product := Nat.mul_le_mul levels small
  rw [FengerCall.treeFits, SIZE_MAX]
  omega

/-- Trees for counts of 31 bits fit into the memory. -/
theorem fits_of_small {call : FengerCall} (inputs : call.numInputs ≤ 2 ^ 31) (someInputs : call.numInputs ≠ 0)
    (recovery : call.numRecovery ≤ 2 ^ 31) (someRecovery : call.numRecovery ≠ 0) : call.Fits := by
  rw [FengerCall.Fits]
  split
  · trivial
  · exact ⟨treeFits_of_le (by omega), treeFits_of_le (by omega)⟩
  · rename_i numInputsPadded numRecoveryPadded syntheticInputBase route
    rw [FengerCall.route] at route
    split at route
    · rename_i found_inputs found_recovery
      have input := paddedCount_le (by omega) found_inputs
      have row := paddedCount_le (by omega) found_recovery
      dsimp only at route
      split at route
      · cases route
      · split at route
        · split at route
          · cases route
          · obtain ⟨rfl, rfl, rfl⟩ := FengerRoute.padded.inj route
            exact ⟨treeFits_of_le (by omega), treeFits_of_le (by omega)⟩
        · cases route
    · cases route

theorem computeFenger_exists (engine : RecoveryEngine) (outputs : Words)
    (checked : checkFenger args inputs = .ok ()) (inputs_small : args.numInputs < 2 ^ 31)
    (recovery_small : args.numRecovery < 2 ^ 31) :
    ∃ last, engine.computeFenger args inputs outputs last := by
  have small : args.numInputs ≤ SIZE_MAX ∧ args.numRecovery ≤ SIZE_MAX := by
    rw [SIZE_MAX]
    omega
  obtain ⟨result, after, called⟩ : ∃ result after, (args.fengerCall small).ComputeRecoveryBlocksFenger
      engine.kernels engine.inverses engine.batchEnv engine.host (wordAt inputs) .empty (memoryOf outputs)
      result after := by
    by_cases nothing : args.numInputs = 0 ∨ args.numRecovery = 0
    · have empty : (args.fengerCall small).numInputs = 0 ∨ (args.fengerCall small).numRecovery = 0 ∨
          (args.fengerCall small).blockSize64 = 0 := nothing.imp_right Or.inl
      refine ⟨memoryOf outputs, .empty, ?_⟩
      rw [FengerCall.ComputeRecoveryBlocksFenger, if_pos empty]
      exact ⟨rfl, rfl⟩
    · exact FengerCall.called_exists (fits_of_small inputs_small.le (fun none => nothing (.inl none))
        recovery_small.le fun none => nothing (.inr none)) _ _ _ _ _ _ _
  exact ⟨_, checked, small, .empty, after, _, result, .start, load_memoryOf outputs, called, rfl⟩

theorem computeChunks_exists (engine : RecoveryEngine) (accepted : args.Accepted inputs) (outputs : Words)
    (bytes turns : ℕ) : ∃ last, engine.computeChunks args inputs bytes outputs turns last := by
  induction turns with
  | zero => exact ⟨_, rfl⟩
  | succ ci ih =>
    obtain ⟨sum, earlier⟩ := ih
    have few : (chunkArgs args inputs bytes ci).numInputs ≤ args.numInputs := by
      refine Nat.div_le_of_le_mul ?_
      rw [Nat.mul_comm, ← accepted.length, chunkIn, slice, List.length_take, List.length_drop]
      omega
    have rows := (Nat.le_div_iff_mul_le accepted.size).mpr accepted.room
    have checked : checkFenger (chunkArgs args inputs bytes ci) (chunkIn inputs bytes ci) = .ok () := by
      rw [checkFenger, show (chunkArgs args inputs bytes ci).checkBlockSize = .ok () from
        accepted.checkBlockSize_ok, checkBuffers]
      exact (if_neg (Nat.lt_irrefl _)).trans (if_neg (Nat.not_lt.mpr rows))
    obtain ⟨chunkOut, chunk⟩ := computeFenger_exists engine (fun _ => 0) checked
      (few.trans_lt accepted.inputs_small)
      (show (chunkArgs args inputs bytes ci).numRecovery < 2 ^ 31 from accepted.recovery_small)
    exact ⟨_, sum, chunkOut, earlier, chunk, rfl⟩

/-- A call that the entries accept returns, unless a kernel is asked for that the addon does not have.
Every way leads to an entry, and each entry passes its checks. -/
theorem dispatchRecovery_exists (engine : RecoveryEngine) (env : DispatchEnv) (outputs : Words)
    (accepted : args.Accepted inputs) (full : engine.compute_recovery_full = true)
    (fenger : env.PAR3_GF64_USE_FENGER = .forced → engine.compute_recovery_fenger = true) :
    ∃ last, engine.dispatchRecovery args inputs env outputs last := by
  have returns : ∃ route, env.route engine args inputs.length = .ok route := by
    rw [DispatchEnv.route, if_neg]
    · split_ifs
      all_goals exact ⟨_, rfl⟩
    · rintro ⟨forced, missing⟩
      rw [fenger forced] at missing
      cases missing
  obtain ⟨route, chosen⟩ := returns
  suffices ∃ last, engine.compute args inputs outputs last route by
    obtain ⟨last, computed⟩ := this
    exact ⟨last, route, chosen, computed⟩
  cases route with
  | fenger =>
    exact computeFenger_exists engine outputs accepted.checkFenger_ok accepted.inputs_small
      accepted.recovery_small
  | fengerChunks bytes => exact computeChunks_exists engine accepted outputs bytes _
  | barycentric => exact computeBarycentric_exists engine accepted false outputs
  | full => exact computeFull_exists engine accepted false outputs

end RecoveryEngine

/-- For every environment and every set of kernels a call with arguments that the entries accept
returns, unless a kernel is asked for that the addon does not have, and all calls that return leave the
same recovery blocks behind. -/
theorem dispatch_independent (args : KernelArgs) (inputs : Buffer) (accepted : args.Accepted inputs)
    (separate : args.Separate) (outputs : Words) :
    (∀ (engine : RecoveryEngine) (env : DispatchEnv), engine.compute_recovery_full = true →
      (env.PAR3_GF64_USE_FENGER = .forced → engine.compute_recovery_fenger = true) →
      ∃ last, engine.dispatchRecovery args inputs env outputs last) ∧
    ∀ (engine other : RecoveryEngine) (env otherEnv : DispatchEnv) (last otherLast : Words),
      engine.dispatchRecovery args inputs env outputs last →
      other.dispatchRecovery args inputs otherEnv outputs otherLast →
        ∀ i < args.outputWords, last i = otherLast i := by
  refine ⟨fun engine env => RecoveryEngine.dispatchRecovery_exists engine env outputs accepted,
    fun engine other env otherEnv last otherLast computed otherComputed i inside => ?_⟩
  have first := RecoveryEngine.dispatchRecovery_added separate accepted computed
  exact first.unique (RecoveryEngine.dispatchRecovery_added separate accepted otherComputed) inside

/-- An addon with all kernels. -/
def allKernels : RecoveryEngine where
  host := oneProcessor
  kernels := ⟨false, true⟩
  inverses := ⟨true, .scalar⟩
  batchEnv := none
  compute_recovery_full := true
  compute_recovery_barycentric := true
  compute_recovery_fenger := true

/-- The trees are asked for or not, with a limit for the inputs. -/
def limitedEnv (useFenger : UseFenger) (limit : Number) : DispatchEnv where
  PAR3_GF64_USE_FENGER := useFenger
  PAR3_FENGER_MIN_R := none
  PAR3_FENGER_WINDOWS_MAX_INPUTS := none
  PAR3_SIMULATED_BUFFER_CAP := some (some limit)
  PAR3_INPUT_CHUNK_CAP := none
  PAR3_BF64_MIN_INPUTS := none
  win32 := false
  kMaxLength := 0

/-- Three inputs of two words, by trees in chunks of two and of one, and with the whole matrix. -/
def threeInputs : KernelArgs := ⟨3, 2, 16, 0, 3, 1, 32⟩

def fortyBytes : Number := ⟨40, by norm_num [double, roundDouble_of_lt]⟩

example : (limitedEnv .forced fortyBytes).route allKernels threeInputs 48 = .ok (.fengerChunks 32) := by
  decide

theorem dispatch_independent_threeInputs : ∃ last other,
    allKernels.dispatchRecovery threeInputs (List.replicate 48 5) (limitedEnv .forced fortyBytes)
      (fun _ => 1) last ∧
    allKernels.dispatchRecovery threeInputs (List.replicate 48 5) (limitedEnv .disabled fortyBytes)
      (fun _ => 1) other ∧ ∀ i < 4, last i = other i := by
  obtain ⟨returns, same⟩ := dispatch_independent threeInputs (List.replicate 48 5)
    ⟨by decide, by decide, by decide, by decide, by decide, by decide, by decide, by decide⟩
    ⟨by decide, by decide, .inl (by decide)⟩ fun _ => 1
  obtain ⟨last, chunks⟩ := returns allKernels (limitedEnv .forced fortyBytes) rfl fun _ => rfl
  obtain ⟨other, whole⟩ := returns allKernels (limitedEnv .disabled fortyBytes) rfl nofun
  exact ⟨last, other, chunks, whole, same _ _ _ _ _ _ chunks whole⟩

end Par3
