import Par3.FengerContract
import Par3.Barycentric

/-!
# The engine's way through the trees

The trees need powers of two, so other numbers of points are padded: with further input points behind
both ranges, whose words are not read, and with further recovery points. Ranges that overlap, and
padding that does not fit behind them, are left to the engine with the whole matrix. The ends of the
ranges are saturated for this test, while the points themselves wrap around.
-/

namespace Par3

open Interleaving

/-- The arguments of a call, but for the arrays. -/
structure FengerCall where
  numInputs : ℕ
  numRecovery : ℕ
  blockSize64 : ℕ
  firstInput : BitVec 64
  firstRecovery : BitVec 64
  numThreads : ℤ
  numInputs_small : numInputs ≤ SIZE_MAX
  numRecovery_small : numRecovery ≤ SIZE_MAX

/-- The way of a call: with the whole matrix, or with trees. -/
inductive FengerRoute where
  | legacy
  | whole
  | padded (numInputsPadded numRecoveryPadded : ℕ) (syntheticInputBase : BitVec 64)
deriving DecidableEq

/-- Doubles a number until it is not below the count. It stops where it would wrap. -/
def paddedCount (count : ℕ) : ℕ → ℕ → Option ℕ
  | 0, padded => some padded
  | turns + 1, padded =>
    if padded < count then
      if padded > SIZE_MAX >>> 1 then none else paddedCount count turns (padded <<< 1)
    else some padded

def UINT64_MAX : ℕ := 2 ^ 64 - 1

namespace FengerCall

variable (call : FengerCall)

/-- The call with the whole matrix. -/
def legacy (numThreads : ℤ) : RecoveryCall :=
  ⟨call.numInputs, call.numRecovery, call.blockSize64, numThreads, false⟩

/-- The end of a range of numbers, at most `UINT64_MAX`. -/
def saturatedEnd (first : BitVec 64) (count : ℕ) : ℕ :=
  if first.toNat > UINT64_MAX - count then UINT64_MAX else first.toNat + count

def inEnd : ℕ := saturatedEnd call.firstInput call.numInputs

def recEnd (numRecoveryPadded : ℕ) : ℕ := saturatedEnd call.firstRecovery numRecoveryPadded

/-- The padding does not fit behind the ranges. -/
def overflow (numInputsPadded numRecoveryPadded : ℕ) : Bool :=
  let padCount := numInputsPadded - call.numInputs
  call.firstInput.toNat > UINT64_MAX - call.numInputs ∨
    call.firstRecovery.toNat > UINT64_MAX - numRecoveryPadded ∨
    (if call.inEnd > call.recEnd numRecoveryPadded then call.inEnd else call.recEnd numRecoveryPadded) >
      UINT64_MAX - padCount

def route : FengerRoute :=
  match paddedCount call.numInputs 64 1, paddedCount call.numRecovery 64 1 with
  | some numInputsPadded, some numRecoveryPadded =>
    let padInputs := numInputsPadded ≠ call.numInputs
    let padRecovery := numRecoveryPadded ≠ call.numRecovery
    let inEnd := call.inEnd
    let recEnd := call.recEnd numRecoveryPadded
    if call.firstRecovery.toNat < inEnd ∧ call.firstInput.toNat < recEnd then .legacy
    else if padInputs ∨ padRecovery then
      if call.overflow numInputsPadded numRecoveryPadded then .legacy
      else
        let syntheticInputBase := if inEnd > recEnd then inEnd else recEnd
        .padded numInputsPadded numRecoveryPadded (BitVec.ofNat 64 syntheticInputBase)
    else .whole
  | _, _ => .legacy

/-- The number of threads, after the override from the environment. -/
def threads (host : EngineHost) : ℕ :=
  let numThreads := if 0 < host.fengerThreadsEnv then host.fengerThreadsEnv else call.numThreads
  if numThreads ≤ 0 then
    let max_useful := host.effectiveCpuCount
    let max_useful := if max_useful > call.blockSize64 then call.blockSize64 else max_useful
    if max_useful < 1 then 1 else max_useful
  else numThreads.toNat

section Execution

variable (kernels : Kernels) (e : Option ℤ) (host : EngineHost) (inputs : Words)
  (ctx : Option FengerContext)

/-- `(blockSize64 + numThreads - 1) / numThreads` -/
def chunk : ℕ := (call.blockSize64 + call.threads host - 1) / call.threads host

/-- The words that the passes of a thread begin and end with. -/
def passes (t : ℕ) : List (ℕ × ℕ) :=
  let w_start := t * call.chunk host
  let w_end := min (w_start + call.chunk host) call.blockSize64
  if t < call.threads host ∧ w_start < call.blockSize64 then
    (strided w_start w_end (fenger_batch_words e)).map fun w =>
      (w, min (w + fenger_batch_words e) w_end)
  else []

/-- What the threads may leave in the recovery blocks, when no pass ends the program. -/
def executeThreads (out last : Words) : Prop :=
  ∃ step : ℕ × ℕ → Step ℕ Gf64,
    (∀ t, ∀ pass ∈ call.passes e host t, ∀ out,
      gf64_fenger_execute kernels e ctx inputs call.blockSize64 out pass.1 pass.2 =
        some (step pass out)) ∧
    Interleaved (fun t => (call.passes e host t).map step) out last

def execute (out last : Words) : Prop :=
  if call.threads host = 1 then
    gf64_fenger_execute kernels e ctx inputs call.blockSize64 out 0 call.blockSize64 = some last
  else call.executeThreads kernels e host inputs ctx out last

/-- The recovery blocks after the preparation and the execution. -/
def executePrepared (prepared : Option (Option FengerContext)) (memory last : Memory) : Prop :=
  ∃ ctx words, prepared = some ctx ∧
    call.execute kernels e host inputs ctx (load memory ⟨recoveryBuffer, 0⟩) words ∧
    last = fun address =>
      if address.buffer = recoveryBuffer then words address.offset else memory address

end Execution

/-- What a call may leave in the memory and in the cache. -/
def ComputeRecoveryBlocksFenger (kernels : Kernels) (inverses : InverseKernels) (e : Option ℤ)
    (host : EngineHost) (inputs : Words) (cache : CoeffCache) (memory last : Memory)
    (after : CoeffCache) : Prop :=
  if call.numInputs = 0 ∨ call.numRecovery = 0 ∨ call.blockSize64 = 0 then
    last = memory ∧ after = cache
  else
    let memory := memset ⟨recoveryBuffer, 0⟩ (call.numRecovery * call.blockSize64) memory
    match call.route with
    | .legacy =>
      (call.legacy 0).ComputeRecoveryBlocks call.firstInput call.firstRecovery host inputs cache memory
        last after
    | .whole =>
      after = cache ∧ call.executePrepared kernels e host inputs
        (gf64_fenger_prepare kernels inverses call.firstInput call.firstRecovery call.numInputs
          call.numRecovery) memory last
    | .padded numInputsPadded numRecoveryPadded syntheticInputBase =>
      after = cache ∧ call.executePrepared kernels e host inputs
        (gf64_fenger_prepare_padded kernels inverses call.firstInput call.firstRecovery call.numInputs
          call.numRecovery numInputsPadded numRecoveryPadded syntheticInputBase) memory last

end FengerCall

end Par3
