import Par3.Repair

/-!
# The capacity of the input chunk

Creation keeps all recovery blocks in memory and feeds the kernel chunks of input blocks. A gate
in `run` admits this when the reserve for the recovery blocks and one input block fit in the
memory budget, and `decideChunkCapBytes` later sizes the chunk. Both read the budget, the
environment and the choice of the kernel anew.

Sizes are whole numbers of bytes, and sums, differences and products are rounded to doubles.
-/

namespace Par3

/-- An integer that a double holds. -/
structure Number where
  value : ℤ
  exact : double value = value

inductive RecoveryKernel where
  | fenger
  | barycentric
  | matvec
  | fallback
deriving DecidableEq

/-- A variable of the environment as `parseInt` reads it: `none` when it is not set or empty,
`some none` when it is not a finite number. -/
abbrev ParsedVariable := Option (Option Number)

/-- What creation reads of the environment. -/
structure CreateEnv where
  PAR3_STREAM_CHUNK_BYTES : ParsedVariable
  PAR3_SIMULATED_BUFFER_CAP : ParsedVariable
  PAR3_INPUT_CHUNK_CAP : ParsedVariable
  PAR3_MEMORY_LIMIT : ParsedVariable
  PAR3_BATCH_SIZE : Bool
  PAR3_USE_JS_KERNEL : Bool
  PAR3_FORCE_CHUNKED : Bool
  PAR3_DISABLE_CHUNKED : Bool
  PAR3_GF64_LEGACY_FULL : Bool

/-- A generator at the start of `run`. The constructor rejects a block size below 1024 bytes. -/
structure CreateOpts where
  blockSize : ℕ
  recoverySlices : ℕ
  totalBlocks : ℕ
  memoryLimit : Option Number
  blockSize_large : 1024 ≤ blockSize
  blockSize_exact : double blockSize = blockSize

/-- The cache that a group of cores shares, 0 when it is not known. -/
def getOptimalChunkCap (l3PerCluster blockSize : ℕ) : ℕ :=
  let ccdL3Bytes := if 0 < l3PerCluster then l3PerCluster else 32 * 1024 * 1024
  -- 2 / 3 is a double as well, and so is the product
  let optimalChunk := roundDouble (ccdL3Bytes * 6004799503160661) / 2 ^ 53
  let clampedChunk := min (64 * 1024 * 1024) (max (16 * 1024 * 1024) optimalChunk)
  let bs := if blockSize = 0 then 64 * 1024 else blockSize
  if 0 < bs ∧ bs < clampedChunk then clampedChunk / bs * bs
  else if clampedChunk < bs then bs
  else clampedChunk

namespace CreateEnv

variable (env : CreateEnv)

/-- A number that is asked for, when it is positive. -/
def positive (parsed : Option Number) : Option ℤ :=
  parsed.bind fun number => if 0 < number.value then some number.value else none

/-- The chunk capacity of the first variable that is set, when it is a positive number. -/
def explicitChunkCap : Option ℤ :=
  match env.PAR3_STREAM_CHUNK_BYTES with
  | some parsedChunk => positive parsedChunk
  | none =>
    match env.PAR3_SIMULATED_BUFFER_CAP with
    | some parsedSim => positive parsedSim
    | none =>
      match env.PAR3_INPUT_CHUNK_CAP with
      | some parsedCap => positive parsedCap
      | none => none

/-- The budget of the environment, else that of the options, 0 when there is none. -/
def maxMemoryBudget (memoryLimit : Option Number) : ℤ :=
  (positive (env.PAR3_MEMORY_LIMIT.getD none)).getD ((memoryLimit.map Number.value).getD 0)

def defaultBufferBudget : ℤ := 384 * 1024 * 1024

def targetMemoryBudget (memoryLimit : Option Number) : ℤ :=
  if 0 < env.maxMemoryBudget memoryLimit then env.maxMemoryBudget memoryLimit
  else defaultBufferBudget

/-- `decideChunkCapBytes`. It does not use the size of the input. -/
def decideChunkCapBytes (l3PerCluster numRecovery blockSize : ℕ) (kernel : RecoveryKernel)
    (memoryLimit : Option Number) : ℤ :=
  let chunkCapBytes := (env.explicitChunkCap).getD (getOptimalChunkCap l3PerCluster blockSize)
  let recoveryBufferReserve :=
    double (double ((if kernel = .fenger then 2 else 1) * numRecovery) * blockSize)
  let maxMemoryBudget := env.maxMemoryBudget memoryLimit
  let minCap : ℤ := if blockSize = 0 then 1 else blockSize
  let availBudget := double (env.targetMemoryBudget memoryLimit - recoveryBufferReserve)
  if availBudget < minCap then 0
  else if 0 < maxMemoryBudget then
    min chunkCapBytes (min (max minCap (maxMemoryBudget / 2)) availBudget)
  else min chunkCapBytes availBudget

end CreateEnv

namespace CreateOpts

open CreateEnv

-- The kernel is chosen from the number of input and recovery blocks and their size.
variable (o : CreateOpts) (env : CreateEnv) (l3PerCluster : ℕ) (hasComputeRecoveryFull : Bool)
  (decideRecoveryKernel : ℕ → ℕ → ℕ → RecoveryKernel)

def MAX_IN_MEMORY : ℤ := 512 * 1024 * 1024

def totalRecoverySize : ℤ := double (o.recoverySlices * o.blockSize)

def recoveryReserve : ℤ :=
  double ((if decideRecoveryKernel o.totalBlocks o.recoverySlices o.blockSize = .fenger then 2
    else 1) * o.totalRecoverySize)

/-- The gate of the path with a single accumulator. -/
def useComputeRecoveryFull : Bool :=
  !env.PAR3_BATCH_SIZE && !env.PAR3_USE_JS_KERNEL && o.totalRecoverySize ≤ MAX_IN_MEMORY &&
    hasComputeRecoveryFull &&
    double (o.recoveryReserve decideRecoveryKernel + o.blockSize) ≤
      env.targetMemoryBudget o.memoryLimit

/-- The capacity that `run` asks for once the gate has let it through. -/
def chunkCapBytes : ℤ :=
  env.decideChunkCapBytes l3PerCluster o.recoverySlices o.blockSize
    (decideRecoveryKernel o.totalBlocks o.recoverySlices o.blockSize) o.memoryLimit

inductive ChunkPlan where
  | rangeError
  | fullInputs
  | chunked (chunkCapacityBlocks : ℤ)
deriving DecidableEq

/-- How the inputs are buffered on the path with a single accumulator. -/
def planChunks : ChunkPlan :=
  let chunkCapBytes := o.chunkCapBytes env l3PerCluster decideRecoveryKernel
  if chunkCapBytes ≤ 0 then .rangeError
  else if !(env.PAR3_DISABLE_CHUNKED || env.PAR3_GF64_LEGACY_FULL) &&
      (env.PAR3_FORCE_CHUNKED || chunkCapBytes < double (o.totalBlocks * o.blockSize)) then
    .chunked (max 1 (chunkCapBytes / o.blockSize))
  else .fullInputs

/-! ## Rounding keeps the order of sizes -/

/-- Rounding loses less than half. -/
theorem le_two_mul_roundDouble (value : ℕ) : value ≤ 2 * roundDouble value := by
  have division := Nat.div_add_mod' value (2 ^ (value.log2 - 52))
  have rest := Nat.mod_lt value (Nat.two_pow_pos (value.log2 - 52))
  have leading : 2 ^ (value.log2 - 52) ≤ value ∨ value = 0 := by
    by_cases zero : value = 0
    · exact Or.inr zero
    · exact Or.inl ((Nat.pow_le_pow_right (by omega) (Nat.sub_le _ _)).trans
        (Nat.log2_self_le zero))
  have quotient : 2 ^ (value.log2 - 52) ≤ value / 2 ^ (value.log2 - 52) * 2 ^ (value.log2 - 52) ∨
      value = 0 := by
    rcases leading with leading | zero
    · apply Or.inl
      apply Nat.le_mul_of_pos_left
      exact Nat.div_pos leading (Nat.two_pow_pos _)
    · exact Or.inr zero
  simp only [roundDouble]
  rw [Nat.add_mul, Nat.one_mul]
  generalize value / 2 ^ (value.log2 - 52) * 2 ^ (value.log2 - 52) = rounded at *
  split
  · omega
  · omega

theorem double_of_small {value : ℤ} (nonnegative : 0 ≤ value) (small : value < 2 ^ 53) :
    double value = value := by
  obtain ⟨natural, rfl⟩ := Int.eq_ofNat_of_zero_le nonnegative
  apply double_natCast
  exact_mod_cast small

theorem le_two_mul_double {value : ℤ} (nonnegative : 0 ≤ value) : value ≤ 2 * double value := by
  obtain ⟨natural, rfl⟩ := Int.eq_ofNat_of_zero_le nonnegative
  have halved := le_two_mul_roundDouble natural
  rw [double_natCast_eq]
  exact_mod_cast halved

/-- A budget is a number of the environment or of the options. -/
theorem maxMemoryBudget_exact (memoryLimit : Option Number) :
    double (env.maxMemoryBudget memoryLimit) = env.maxMemoryBudget memoryLimit := by
  have option : double ((memoryLimit.map Number.value).getD 0) =
      (memoryLimit.map Number.value).getD 0 := by
    cases memoryLimit with
    | none => exact double_of_small le_rfl (by norm_num)
    | some limit => exact limit.exact
  rw [maxMemoryBudget]
  cases given : positive (env.PAR3_MEMORY_LIMIT.getD none) with
  | none => exact option
  | some limit =>
    obtain ⟨number, -, kept⟩ := Option.bind_eq_some_iff.mp given
    split at kept
    · cases kept
      exact number.exact
    · cases kept

/-! ## What the gate has checked -/

section Gate

variable {o env hasComputeRecoveryFull decideRecoveryKernel}
  (gate : o.useComputeRecoveryFull env hasComputeRecoveryFull decideRecoveryKernel)

include gate

theorem recoverySize_bounded :
    o.totalRecoverySize = o.recoverySlices * o.blockSize ∧ o.totalRecoverySize ≤ MAX_IN_MEMORY := by
  have bounded : o.totalRecoverySize ≤ MAX_IN_MEMORY := by
    simp only [useComputeRecoveryFull, Bool.and_eq_true, decide_eq_true_eq] at gate
    exact gate.1.1.2
  have halved : (o.recoverySlices * o.blockSize : ℤ) ≤ 2 * o.totalRecoverySize :=
    le_two_mul_double (by positivity)
  constructor
  · apply double_of_small (by positivity)
    simp only [MAX_IN_MEMORY] at bounded
    omega
  · exact bounded

/-- Both places compute the reserve, which is the exact product. -/
theorem reserve_exact :
    o.recoveryReserve decideRecoveryKernel =
        (if decideRecoveryKernel o.totalBlocks o.recoverySlices o.blockSize = .fenger then 2
          else 1) * (o.recoverySlices * o.blockSize) ∧
      double (double ((if decideRecoveryKernel o.totalBlocks o.recoverySlices o.blockSize = .fenger
          then 2 else 1) * o.recoverySlices) * o.blockSize) =
        o.recoveryReserve decideRecoveryKernel := by
  obtain ⟨exact, bounded⟩ := recoverySize_bounded gate
  have large : (1024 : ℤ) ≤ o.blockSize := by exact_mod_cast o.blockSize_large
  have slices : (o.recoverySlices : ℤ) ≤ o.recoverySlices * o.blockSize := by
    apply le_mul_of_one_le_right (by positivity)
    omega
  rw [exact] at bounded
  simp only [MAX_IN_MEMORY] at bounded
  have nonnegative : (0 : ℤ) ≤ o.recoverySlices * o.blockSize := by positivity
  have products (times : ℤ) (positive : 0 ≤ times) (two : times ≤ 2) :
      double (times * (o.recoverySlices * o.blockSize)) = times * (o.recoverySlices * o.blockSize) ∧
        double (double (times * o.recoverySlices) * o.blockSize) =
          times * (o.recoverySlices * o.blockSize) := by
    have size : times * (o.recoverySlices * o.blockSize : ℤ) < 2 ^ 53 := by nlinarith
    have row : times * (o.recoverySlices : ℤ) < 2 ^ 53 := by nlinarith
    constructor
    · exact double_of_small (by positivity) size
    · rw [double_of_small (by positivity) row, mul_assoc]
      exact double_of_small (by positivity) size
  simp only [recoveryReserve, exact]
  split
  · obtain ⟨here, there⟩ := products 2 (by omega) (by omega)
    exact ⟨here, there.trans here.symm⟩
  · obtain ⟨here, there⟩ := products 1 (by omega) (by omega)
    exact ⟨here, there.trans here.symm⟩

theorem reserve_bounded :
    0 ≤ o.recoveryReserve decideRecoveryKernel ∧ o.recoveryReserve decideRecoveryKernel ≤ 2 ^ 30 := by
  obtain ⟨exact, bounded⟩ := recoverySize_bounded gate
  rw [exact] at bounded
  simp only [MAX_IN_MEMORY] at bounded
  have nonnegative : (0 : ℤ) ≤ o.recoverySlices * o.blockSize := by positivity
  rw [(reserve_exact gate).1]
  split
  · omega
  · omega

/-- One block is no larger than the bound on the recovery blocks, or there are none of them. -/
theorem block_bounded :
    (o.blockSize : ℤ) ≤ 2 ^ 29 ∨ o.recoveryReserve decideRecoveryKernel = 0 := by
  obtain ⟨exact, bounded⟩ := recoverySize_bounded gate
  rw [exact] at bounded
  simp only [MAX_IN_MEMORY] at bounded
  by_cases none : o.recoverySlices = 0
  · apply Or.inr
    rw [(reserve_exact gate).1, none]
    simp
  · apply Or.inl
    have one : (1 : ℤ) ≤ o.recoverySlices := by exact_mod_cast Nat.pos_of_ne_zero none
    have single : (o.blockSize : ℤ) ≤ o.recoverySlices * o.blockSize :=
      le_mul_of_one_le_left (by positivity) one
    omega

/-- The gate compares the exact sum. -/
theorem block_fits :
    o.recoveryReserve decideRecoveryKernel + o.blockSize ≤ env.targetMemoryBudget o.memoryLimit := by
  obtain ⟨nonnegative, bounded⟩ := reserve_bounded gate
  have fits : double (o.recoveryReserve decideRecoveryKernel + o.blockSize) ≤
      env.targetMemoryBudget o.memoryLimit := by
    simp only [useComputeRecoveryFull, Bool.and_eq_true, decide_eq_true_eq] at gate
    exact gate.2
  rcases block_bounded gate with small | none
  · rw [double_of_small (by positivity) (by omega)] at fits
    exact fits
  · rw [none, zero_add, o.blockSize_exact] at fits
    rw [none, zero_add]
    exact fits

/-- What is left of the budget holds a block, and the reserve fits beside it. When the
difference is too large to be exact, half of the budget fits beside the reserve instead. -/
theorem available_budget :
    (o.blockSize : ℤ) ≤ double (env.targetMemoryBudget o.memoryLimit -
        o.recoveryReserve decideRecoveryKernel) ∧
      (double (env.targetMemoryBudget o.memoryLimit - o.recoveryReserve decideRecoveryKernel) =
          env.targetMemoryBudget o.memoryLimit - o.recoveryReserve decideRecoveryKernel ∨
        0 < env.maxMemoryBudget o.memoryLimit ∧
          o.recoveryReserve decideRecoveryKernel + env.maxMemoryBudget o.memoryLimit / 2 ≤
            env.targetMemoryBudget o.memoryLimit) := by
  obtain ⟨nonnegative, bounded⟩ := reserve_bounded gate
  have fits := block_fits gate
  by_cases small : env.targetMemoryBudget o.memoryLimit - o.recoveryReserve decideRecoveryKernel <
      2 ^ 53
  · rw [double_of_small (by omega) small]
    constructor
    · omega
    · exact Or.inl rfl
  · have limited : 0 < env.maxMemoryBudget o.memoryLimit := by
      by_contra unlimited
      simp only [targetMemoryBudget, if_neg unlimited, defaultBufferBudget] at small
      omega
    have target : env.targetMemoryBudget o.memoryLimit = env.maxMemoryBudget o.memoryLimit := by
      simp only [targetMemoryBudget, if_pos limited]
    constructor
    · rcases block_bounded gate with small | none
      · have left : 0 ≤ env.targetMemoryBudget o.memoryLimit -
            o.recoveryReserve decideRecoveryKernel := by omega
        have halved := le_two_mul_double left
        omega
      · rw [none, sub_zero, target, maxMemoryBudget_exact, ← target]
        omega
    · apply Or.inr
      constructor
      · exact limited
      · omega

end Gate

theorem getOptimalChunkCap_ge (l3PerCluster blockSize : ℕ) (positive : 0 < blockSize) :
    blockSize ≤ getOptimalChunkCap l3PerCluster blockSize := by
  simp only [getOptimalChunkCap, if_neg positive.ne']
  generalize min (64 * 1024 * 1024) _ = clampedChunk
  split
  case isTrue room =>
    apply Nat.le_mul_of_pos_left
    exact Nat.div_pos room.2.le positive
  case isFalse room =>
    split
    · exact le_rfl
    · omega

/-- A capacity that the environment asks for is positive. -/
theorem explicitChunkCap_pos {asked : ℤ} (explicit : env.explicitChunkCap = some asked) :
    0 < asked := by
  have positive_pos {parsed : Option Number} (given : positive parsed = some asked) : 0 < asked := by
    obtain ⟨number, -, kept⟩ := Option.bind_eq_some_iff.mp given
    split at kept
    case isTrue larger =>
      cases kept
      exact larger
    case isFalse => cases kept
  simp only [explicitChunkCap] at explicit
  split at explicit
  · exact positive_pos explicit
  · split at explicit
    · exact positive_pos explicit
    · split at explicit
      · exact positive_pos explicit
      · cases explicit

/-- The capacity is the one asked for, else the optimal one, unless the budget leaves less for it. -/
theorem chunkCapBytes_eq
    (gate : o.useComputeRecoveryFull env hasComputeRecoveryFull decideRecoveryKernel) :
    ∃ remaining, (o.blockSize : ℤ) ≤ remaining ∧
      o.recoveryReserve decideRecoveryKernel + remaining ≤ env.targetMemoryBudget o.memoryLimit ∧
      o.chunkCapBytes env l3PerCluster decideRecoveryKernel =
        min (env.explicitChunkCap.getD (getOptimalChunkCap l3PerCluster o.blockSize)) remaining := by
  have large := o.blockSize_large
  have fits := block_fits gate
  obtain ⟨room, exact⟩ := available_budget gate
  simp only [chunkCapBytes, decideChunkCapBytes, (reserve_exact gate).2,
    if_neg (show ¬ o.blockSize = 0 by omega), if_neg room.not_gt]
  by_cases limited : 0 < env.maxMemoryBudget o.memoryLimit
  · refine ⟨min (max (o.blockSize : ℤ) (env.maxMemoryBudget o.memoryLimit / 2))
      (double (env.targetMemoryBudget o.memoryLimit - o.recoveryReserve decideRecoveryKernel)),
      ?_, ?_, ?_⟩
    · exact le_min (le_max_left _ _) room
    · rcases exact with exact | ⟨-, half⟩
      · rw [exact]
        omega
      · omega
    · rw [if_pos limited]
  · refine ⟨double (env.targetMemoryBudget o.memoryLimit - o.recoveryReserve decideRecoveryKernel),
      room, ?_, ?_⟩
    · rcases exact with exact | ⟨limit, -⟩
      · omega
      · exact absurd limit limited
    · rw [if_neg limited]

/-- Behind the gate the chunk gets a positive capacity. It holds a block, unless the environment
asks for less, and beside the reserve it fits in the budget. -/
theorem planChunks_within_budget
    (gate : o.useComputeRecoveryFull env hasComputeRecoveryFull decideRecoveryKernel) :
    0 < o.chunkCapBytes env l3PerCluster decideRecoveryKernel ∧
      (o.blockSize ≤ o.chunkCapBytes env l3PerCluster decideRecoveryKernel ∨
        ∃ asked < (o.blockSize : ℤ), env.explicitChunkCap = some asked ∧
          o.chunkCapBytes env l3PerCluster decideRecoveryKernel = asked) ∧
      o.planChunks env l3PerCluster decideRecoveryKernel ≠ .rangeError ∧
      o.recoveryReserve decideRecoveryKernel +
          o.chunkCapBytes env l3PerCluster decideRecoveryKernel ≤
        env.targetMemoryBudget o.memoryLimit := by
  have positive : 0 < o.blockSize := lt_of_lt_of_le (by norm_num) o.blockSize_large
  obtain ⟨remaining, room, fits, capacity⟩ :=
    chunkCapBytes_eq o env l3PerCluster hasComputeRecoveryFull decideRecoveryKernel gate
  have bounds : (o.blockSize : ℤ) ≤ o.chunkCapBytes env l3PerCluster decideRecoveryKernel ∨
      ∃ asked < (o.blockSize : ℤ), env.explicitChunkCap = some asked ∧
        o.chunkCapBytes env l3PerCluster decideRecoveryKernel = asked := by
    cases explicit : env.explicitChunkCap with
    | none =>
      have optimal := getOptimalChunkCap_ge l3PerCluster o.blockSize positive
      apply Or.inl
      rw [capacity, explicit, Option.getD_none]
      apply le_min
      · exact_mod_cast optimal
      · exact room
    | some asked =>
      rw [capacity, explicit, Option.getD_some]
      by_cases less : asked < o.blockSize
      · exact Or.inr ⟨asked, less, rfl, min_eq_left (less.le.trans room)⟩
      · exact Or.inl (le_min (not_lt.mp less) room)
  have larger : 0 < o.chunkCapBytes env l3PerCluster decideRecoveryKernel := by
    rcases bounds with block | ⟨asked, -, explicit, equal⟩
    · omega
    · rw [equal]
      exact explicitChunkCap_pos env explicit
  constructor
  · exact larger
  constructor
  · exact bounds
  constructor
  · simp only [planChunks, if_neg larger.not_ge]
    split
    · exact ChunkPlan.noConfusion
    · exact ChunkPlan.noConfusion
  · rw [capacity]
    have least := min_le_right
      (env.explicitChunkCap.getD (getOptimalChunkCap l3PerCluster o.blockSize : ℤ)) remaining
    omega

def smallCreate : CreateOpts where
  blockSize := 1024
  recoverySlices := 1
  totalBlocks := 1
  memoryLimit := none
  blockSize_large := le_rfl
  blockSize_exact := double_of_small (by norm_num) (by norm_num)

def oneByteChunks : CreateEnv where
  PAR3_STREAM_CHUNK_BYTES := some (some ⟨1, double_of_small (by norm_num) (by norm_num)⟩)
  PAR3_SIMULATED_BUFFER_CAP := none
  PAR3_INPUT_CHUNK_CAP := none
  PAR3_MEMORY_LIMIT := none
  PAR3_BATCH_SIZE := false
  PAR3_USE_JS_KERNEL := false
  PAR3_FORCE_CHUNKED := false
  PAR3_DISABLE_CHUNKED := false
  PAR3_GF64_LEGACY_FULL := false

/-- The capacity is within the budget, whatever the environment asks for. -/
theorem smallCreate_within_budget :
    0 < smallCreate.chunkCapBytes oneByteChunks 0 (fun _ _ _ => .matvec) :=
  (smallCreate.planChunks_within_budget oneByteChunks 0 true (fun _ _ _ => .matvec)
    (by decide +kernel)).1

/-- A chunk of one byte is asked for and granted: one block is more. -/
theorem oneByteChunk_granted :
    smallCreate.useComputeRecoveryFull oneByteChunks true (fun _ _ _ => .matvec) ∧
      smallCreate.planChunks oneByteChunks 0 (fun _ _ _ => .matvec) = .chunked 1 ∧
      smallCreate.chunkCapBytes oneByteChunks 0 (fun _ _ _ => .matvec) < smallCreate.blockSize := by
  decide +kernel

end CreateOpts
end Par3
