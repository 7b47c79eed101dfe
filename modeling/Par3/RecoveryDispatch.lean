import Par3.ChunkCapacity
import Par3.FengerEngineContract

/-!
# Dispatching to the recovery kernels

The addon has one entry for each kernel. Which of them `dispatchRecovery` calls depends on the
environment and on the sizes, and the inputs for the trees may be cut in chunks whose outputs are added.
An entry throws when a count or a size is not positive, or a buffer is too small.
The outputs are given as words. Threads and caches make the entries relations, and a cache may hold
whatever earlier calls left there.
-/

namespace Par3

/-- What the kernels find, and which entries the addon has. -/
structure RecoveryEngine where
  host : EngineHost
  kernels : Kernels
  inverses : InverseKernels
  /-- `PAR3_FENGER_BATCH_WORDS` -/
  batchEnv : Option ℤ
  compute_recovery_full : Bool
  compute_recovery_barycentric : Bool
  compute_recovery_fenger : Bool

/-- A number passed as a 32-bit integer keeps its low bits. -/
def int32Argument (value : ℕ) : ℤ := (BitVec.ofNat 32 value).toInt

/-- The arguments of an entry, but for the buffers, of which only the length of the outputs is here. -/
structure KernelArgs where
  numInputs : ℕ
  numRecovery : ℕ
  blockSize : ℕ
  firstInput : ℕ
  firstRecovery : ℕ
  numThreads : ℤ
  outputsLength : ℕ

namespace KernelArgs

variable (args : KernelArgs)

/-- The counts, for an entry that takes them as 32-bit integers. None below zero is positive. -/
def narrow : KernelArgs := { args with
  numInputs := (int32Argument args.numInputs).toNat
  numRecovery := (int32Argument args.numRecovery).toNat }

/-! The checks of the entries, with the texts of their range errors. -/

def checkCounts : Except String Unit :=
  if args.numInputs = 0 then .error "numInputs must be positive"
  else if args.numRecovery = 0 then .error "numRecovery must be positive"
  else .ok ()

def checkBlockSize : Except String Unit :=
  if args.blockSize = 0 ∨ args.blockSize % 8 ≠ 0 then
    .error "blockSize must be positive and a multiple of 8"
  else .ok ()

def checkBuffers (inputsLength : ℕ) : Except String Unit :=
  if inputsLength / args.blockSize < args.numInputs then
    .error "inputs buffer too small for numInputs * blockSize"
  else if args.outputsLength / args.blockSize < args.numRecovery then
    .error "outputs buffer too small for numRecovery * blockSize"
  else .ok ()

def blockSize64 : ℕ := args.blockSize / 8

/-- The words of all recovery blocks. -/
def outputWords : ℕ := args.numRecovery * args.blockSize64

def recoveryCall (accumulate : Bool) : RecoveryCall where
  numInputs := args.numInputs
  numRecovery := args.numRecovery
  blockSize64 := args.blockSize64
  numThreads := args.numThreads
  accumulate := accumulate

def fengerCall (small : args.numInputs ≤ SIZE_MAX ∧ args.numRecovery ≤ SIZE_MAX) : FengerCall where
  numInputs := args.numInputs
  numRecovery := args.numRecovery
  blockSize64 := args.blockSize64
  firstInput := BitVec.ofNat 64 args.firstInput
  firstRecovery := BitVec.ofNat 64 args.firstRecovery
  numThreads := args.numThreads
  numInputs_small := small.1
  numRecovery_small := small.2

end KernelArgs

/-- The words of one buffer of so many bytes are added to those of another. -/
def xor_buffers (bytes : ℕ) (dst src : Words) : Words := fun i =>
  if 8 * i < bytes then dst i + src i else dst i

namespace RecoveryEngine

variable (engine : RecoveryEngine) (args : KernelArgs) (inputs : Buffer)

/-! ## The entries of the addon -/

/-- The checks of `compute_recovery_full` and `compute_recovery_barycentric`. -/
def checkNarrow : Except String Unit := do
  args.narrow.checkCounts
  args.checkBlockSize
  args.narrow.checkBuffers inputs.length

/-- The checks of `compute_recovery_fenger`. No count is negative. -/
def checkFenger : Except String Unit := do
  args.checkBlockSize
  args.checkBuffers inputs.length

/-- The checks of `compute_recovery_with_coeff`, which does not look at the lengths of its buffers. -/
def checkWithCoeff : Except String Unit := do
  args.checkCounts
  args.checkBlockSize

/-- What `compute_recovery_full` may leave in the outputs, when it does not throw. -/
def computeFull (accumulate : Bool) (outputs last : Words) : Prop :=
  checkNarrow args inputs = .ok () ∧ ∃ cache after memory result,
    cache.Reachable ∧ load memory ⟨recoveryBuffer, 0⟩ = outputs ∧
    (args.narrow.recoveryCall accumulate).ComputeRecoveryBlocks (BitVec.ofNat 64 args.firstInput)
      (BitVec.ofNat 64 args.firstRecovery) engine.host (wordAt inputs) cache memory result after ∧
    last = load result ⟨recoveryBuffer, 0⟩

/-- What `compute_recovery_barycentric` may leave in the outputs. -/
def computeBarycentric (accumulate : Bool) (outputs last : Words) : Prop :=
  checkNarrow args inputs = .ok () ∧ ∃ cache memory result,
    cache.Reachable ∧ load memory ⟨recoveryBuffer, 0⟩ = outputs ∧
    (args.narrow.recoveryCall accumulate).ComputeRecoveryBlocksBarycentric (BitVec.ofNat 64 args.firstInput)
      (BitVec.ofNat 64 args.firstRecovery) engine.host (wordAt inputs) cache memory result ∧
    last = load result ⟨recoveryBuffer, 0⟩

/-- What `compute_recovery_fenger` may leave in the outputs. -/
def computeFenger (outputs last : Words) : Prop :=
  checkFenger args inputs = .ok () ∧ ∃ small cache after memory result,
    cache.Reachable ∧ load memory ⟨recoveryBuffer, 0⟩ = outputs ∧
    (args.fengerCall small).ComputeRecoveryBlocksFenger engine.kernels engine.inverses engine.batchEnv
      engine.host (wordAt inputs) cache memory result after ∧
    last = load result ⟨recoveryBuffer, 0⟩

/-- What `compute_recovery_with_coeff` may leave in the outputs, with a matrix that was built before. -/
def computeWithCoeff (outputs last : Words) : Prop :=
  checkWithCoeff args = .ok () ∧ ∃ fresh coeff memory result,
    ((args.recoveryCall false).key (BitVec.ofNat 64 args.firstInput)
      (BitVec.ofNat 64 args.firstRecovery)).BuildCauchyMatrix engine.host fresh coeff ∧
    load memory ⟨recoveryBuffer, 0⟩ = outputs ∧
    (args.recoveryCall false).ComputeRecoveryBlocksWithCoeff engine.host (wordAt inputs) coeff memory result ∧
    last = load result ⟨recoveryBuffer, 0⟩

end RecoveryEngine

/-! ## The choice -/

/-- The values of `PAR3_GF64_USE_FENGER`: on, off, or anything else. -/
inductive UseFenger where
  | forced
  | disabled
  | unset
deriving DecidableEq

/-- What `dispatchRecovery` reads of the environment. -/
structure DispatchEnv where
  PAR3_GF64_USE_FENGER : UseFenger
  PAR3_FENGER_MIN_R : ParsedVariable
  PAR3_FENGER_WINDOWS_MAX_INPUTS : ParsedVariable
  PAR3_SIMULATED_BUFFER_CAP : ParsedVariable
  PAR3_INPUT_CHUNK_CAP : ParsedVariable
  PAR3_BF64_MIN_INPUTS : ParsedVariable
  win32 : Bool
  /-- `require('buffer').kMaxLength`, zero when it is missing -/
  kMaxLength : ℕ

/-- The bit operations convert their operands to 32 bits. -/
def _isPowerOfTwoOrTrivial (n : ℕ) : Bool :=
  n = 0 ∨ n = 1 ∨ (1 < n ∧ (n % 2 ^ 32) &&& ((n - 1) % 2 ^ 32) = 0)

/-- `while(p < n) p *= 2`, which takes fewer than `n` turns. -/
def doubled (n : ℕ) : ℕ → ℕ → ℕ
  | 0, p => p
  | turns + 1, p => if p < n then doubled n turns (p * 2) else p

def _fengerPaddingReasonable (n : ℕ) : Bool := n ≤ 1 ∨ doubled n n 1 ≤ n * 2

/-- What is called: one entry for all inputs, or that of the trees for chunks of so many bytes. -/
inductive DispatchRoute where
  | fenger
  | fengerChunks (chunkSizeBytes : ℕ)
  | barycentric
  | full
deriving DecidableEq

namespace DispatchEnv

variable (env : DispatchEnv)

/-- A number from the environment when it is positive, else the default. -/
def positiveOr (parsed : ParsedVariable) (default : ℤ) : ℤ :=
  (CreateEnv.positive (parsed.getD none)).getD default

def fengerMinR : ℤ := positiveOr env.PAR3_FENGER_MIN_R 8192

def baryMinInputs : ℤ := positiveOr env.PAR3_BF64_MIN_INPUTS 10000

/-- No limit is `none`. -/
def _fengerWindowsMaxInputs : Option ℤ := CreateEnv.positive (env.PAR3_FENGER_WINDOWS_MAX_INPUTS.getD none)

def inputCap : ℤ :=
  let kMaxLength : ℤ :=
    (if env.kMaxLength = 0 then 1024 * 1024 * 1024 - 1 else (env.kMaxLength : ℤ)) - 1024 - 68
  positiveOr env.PAR3_SIMULATED_BUFFER_CAP (positiveOr env.PAR3_INPUT_CHUNK_CAP kMaxLength)

def fengerEligible (engine : RecoveryEngine) (args : KernelArgs) : Bool :=
  engine.compute_recovery_fenger ∧ _fengerPaddingReasonable args.numInputs ∧
    _isPowerOfTwoOrTrivial args.numRecovery ∧ args.blockSize % 8 = 0 ∧
    (env.fengerMinR ≤ args.numRecovery ∨ env.PAR3_GF64_USE_FENGER = .forced) ∧
    (env.PAR3_GF64_USE_FENGER = .forced ∨ env.win32 = false ∨
      ∀ most ∈ env._fengerWindowsMaxInputs, (args.numInputs : ℤ) ≤ most)

/-- The route of a call, without a function to fall back to. -/
def route (engine : RecoveryEngine) (args : KernelArgs) (length : ℕ) : Except String DispatchRoute :=
  if env.PAR3_GF64_USE_FENGER = .forced ∧ engine.compute_recovery_fenger = false then
    .error "PAR3_GF64_USE_FENGER=1 but binding lacks compute_recovery_fenger; rebuild the native addon"
  else if env.fengerEligible engine args ∧ env.PAR3_GF64_USE_FENGER ≠ .disabled then
    if env.inputCap < length then
      if args.blockSize = 0 ∨ env.inputCap < args.blockSize then .ok .fenger
      else .ok (.fengerChunks (env.inputCap.toNat / args.blockSize * args.blockSize))
    else .ok .fenger
  else if engine.compute_recovery_barycentric ∧ env.baryMinInputs < args.numInputs ∧
      0 < args.numRecovery ∧ args.blockSize % 8 = 0 then .ok .barycentric
  else if engine.compute_recovery_full then .ok .full
  else .error ("dispatchRecovery: no usable fallback kernel (binding lacks compute_recovery_barycentric " ++
    "and compute_recovery_full, and no fallbackFn supplied)")

end DispatchEnv

namespace RecoveryEngine

variable (engine : RecoveryEngine) (args : KernelArgs) (inputs : Buffer)

/-- The inputs of a chunk. -/
def chunkIn (chunkSizeBytes ci : ℕ) : Buffer :=
  slice inputs (ci * chunkSizeBytes) (min (ci * chunkSizeBytes + chunkSizeBytes) inputs.length)

def chunkArgs (chunkSizeBytes ci : ℕ) : KernelArgs := { args with
  numInputs := (chunkIn inputs chunkSizeBytes ci).length / args.blockSize
  firstInput := (double (args.firstInput + ci * chunkSizeBytes / args.blockSize : ℕ)).toNat }

/-- The outputs of the first chunks, added up. All of the buffer is cleared before. -/
def computeChunks (chunkSizeBytes : ℕ) (outputs : Words) : ℕ → Words → Prop
  | 0, last => last = fun i => if 8 * i < args.outputsLength then 0 else outputs i
  | ci + 1, last => ∃ sum chunkOut, computeChunks chunkSizeBytes outputs ci sum ∧
      engine.computeFenger (chunkArgs args inputs chunkSizeBytes ci) (chunkIn inputs chunkSizeBytes ci)
        (fun _ => 0) chunkOut ∧
      last = xor_buffers args.outputsLength sum chunkOut

/-- What a call may leave in the outputs. -/
def compute (outputs last : Words) : DispatchRoute → Prop
  | .fenger => engine.computeFenger args inputs outputs last
  | .fengerChunks chunkSizeBytes =>
    engine.computeChunks args inputs chunkSizeBytes outputs
      ((inputs.length + chunkSizeBytes - 1) / chunkSizeBytes) last
  | .barycentric => engine.computeBarycentric args inputs false outputs last
  | .full => engine.computeFull args inputs false outputs last

/-- `dispatchRecovery` -/
def dispatchRecovery (env : DispatchEnv) (outputs last : Words) : Prop :=
  ∃ route, env.route engine args inputs.length = .ok route ∧ engine.compute args inputs outputs last route

end RecoveryEngine

end Par3
