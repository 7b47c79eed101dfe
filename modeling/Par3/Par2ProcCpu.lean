import Par3.Foundations.Runs
import Par3.Foundations.Loops
import Par3.Bytes
import Par3.Gf16Reciprocal
import Par3.PackedLayout

/-!
# The backend on the processor

Inputs are packed into staging areas by a transfer thread. A batch of them is computed by worker
threads, each of which gets some chunks of the slice for all outputs, or one chunk for some of the
outputs. The first batch overwrites the outputs, later ones add to them. An area may be filled again
when the last worker is done with it.

The slice is cut into blocks of one stride, and a block stands for its words. How a method arranges
the words of a block, and the instructions that multiply and add blocks, are left out.
-/
namespace Par3

open Interleaving

/-- The words of a block. -/
abbrev Block := ℕ → Gf16

/-- What `init`, `setNumThreads` and `setCurrentSliceSize` set. -/
structure CpuConfig where
  currentSliceSize : ℕ
  stride : ℕ
  idealInterleave : ℕ
  targetChunkLen : ℕ
  numThreads : ℕ
  inputBatchSize : ℕ
  minInBatchSize : ℕ
  stagingAreas : ℕ
  outputExponents : List ℕ

namespace CpuConfig

variable (cfg : CpuConfig)

def CEIL_DIV (a b : ℕ) : ℕ := (a + b - 1) / b

def ROUND_DIV (a b : ℕ) : ℕ := (a + (b >>> 1)) / b

/-- The next multiple of the stride. -/
def alignToStride (len : ℕ) : ℕ := (len + (cfg.stride - 1)) / cfg.stride * cfg.stride

/-- The slice with a block for the checksum. -/
def alignedCurrentSliceSize : ℕ := cfg.alignToStride cfg.currentSliceSize + cfg.stride

/-- The number of chunks that `calcChunkSize` aims at. -/
def targetChunks : ℕ :=
  let targetThreadChunk := CEIL_DIV cfg.alignedCurrentSliceSize cfg.numThreads
  if targetThreadChunk ≤ cfg.targetChunkLen / 2 then
    max (ROUND_DIV cfg.alignedCurrentSliceSize cfg.targetChunkLen) 1
  else max (ROUND_DIV targetThreadChunk cfg.targetChunkLen) 1 * cfg.numThreads

/-- `calcChunkSize` -/
def chunkLen : ℕ :=
  cfg.alignToStride (CEIL_DIV cfg.alignedCurrentSliceSize cfg.targetChunks)

def numChunks : ℕ := CEIL_DIV cfg.alignedCurrentSliceSize cfg.chunkLen

def numOutputs : ℕ := cfg.outputExponents.length

/-- How the inputs of a staging area are packed. -/
def inputGeometry : PackedGeometry where
  sliceLen := cfg.alignedCurrentSliceSize - cfg.stride
  blockLen := cfg.stride
  inputPackSize := cfg.inputBatchSize
  chunkLen := cfg.chunkLen
  interleaveSize := cfg.idealInterleave
  hasChecksum := true

/-- How the outputs are packed. -/
def outputGeometry : PackedGeometry where
  sliceLen := cfg.alignedCurrentSliceSize - cfg.stride
  blockLen := cfg.stride
  inputPackSize := cfg.numOutputs
  chunkLen := cfg.chunkLen
  interleaveSize := 1
  hasChecksum := true

/-- `setRecoverySlices`: outputs without exponents have the exponent one. -/
def setRecoverySlices (numSlices : ℕ) (exponents : Option (List ℕ)) : CpuConfig :=
  { cfg with outputExponents := exponents.getD (List.replicate numSlices 1) }

end CpuConfig

/-- An input is added with its number, or with its coefficients. -/
inductive InputNumOrCoeffs where
  | inputNum (inputNum : ℕ)
  | coeffs (coeffs : ℕ → Gf16)

structure CpuInput where
  buffer : Buffer
  coefficients : InputNumOrCoeffs

namespace CpuInput

/-- The coefficient of an input in an output, as `set_coeffs` finds it. -/
def coeff (cfg : CpuConfig) (input : CpuInput) (out : ℕ) : Gf16 :=
  match input.coefficients with
  | .inputNum inputNum =>
    gfmat_coeff_from_log (gfmat_input_log inputNum) (cfg.outputExponents.getD out 0)
  | .coeffs inputCoeffs => inputCoeffs out

end CpuInput

/-! ## Requests -/

/-- A request to a worker. Pointers are offsets into the area, the outputs and their exponents. -/
structure ComputeReq where
  numInputs : ℕ
  firstOutput : ℕ
  numOutputs : ℕ
  len : ℕ
  numChunks : ℕ
  input : ℕ
  output : ℕ
  add : Bool
  procIdx : ℕ

namespace CpuConfig

variable (cfg : CpuConfig) (inBuf numInputs : ℕ) (add : Bool)

def fullChunksPerThread : ℕ := cfg.numChunks / cfg.numThreads

def leftoverChunks : ℕ := cfg.numChunks % cfg.numThreads

/-- The threads that share a chunk that is left over. -/
def threadsPerChunk : ℕ := min (cfg.numThreads / cfg.leftoverChunks) cfg.numOutputs

/-- `(unsigned)(outputsPerThread*tc + 0.5)`: the outputs of the first threads of a chunk. -/
def outputsBefore (tc : ℕ) : ℕ :=
  (2 * cfg.numOutputs * tc + cfg.threadsPerChunk) / (2 * cfg.threadsPerChunk)

def usedThreads : ℕ := cfg.threadsPerChunk * cfg.leftoverChunks

/-- A thread gets a part of the outputs of a chunk that is left over. Threads are counted through
the chunks, and through the parts of each of them. -/
def leftoverReq (thread : ℕ) : ComputeReq :=
  let sliceOffset := thread / cfg.threadsPerChunk * cfg.chunkLen
  let reqLen := min (cfg.alignedCurrentSliceSize - sliceOffset) cfg.chunkLen
  let outputIdx := cfg.outputsBefore (thread % cfg.threadsPerChunk)
  { numInputs := numInputs
    firstOutput := outputIdx
    numOutputs := (cfg.outputsBefore (thread % cfg.threadsPerChunk + 1) - outputIdx) % 2 ^ 16
    len := reqLen
    numChunks := 1
    input := sliceOffset * cfg.inputBatchSize
    output := sliceOffset * cfg.numOutputs + outputIdx * reqLen
    add := add
    procIdx := inBuf }

/-- A thread gets as many of the other chunks as all others. -/
def chunksReq (thread : ℕ) : ComputeReq :=
  let sliceOffset :=
    (cfg.leftoverChunks + thread * cfg.fullChunksPerThread) * cfg.chunkLen
  { numInputs := numInputs
    firstOutput := 0
    numOutputs := cfg.numOutputs % 2 ^ 16
    len := min (cfg.alignedCurrentSliceSize - sliceOffset)
      (cfg.chunkLen * cfg.fullChunksPerThread)
    numChunks := cfg.fullChunksPerThread
    input := sliceOffset * cfg.inputBatchSize
    output := sliceOffset * cfg.numOutputs
    add := add
    procIdx := inBuf }

/-- The requests that `run_kernel` sends, each with its thread. -/
def run_kernel : List (ℕ × ComputeReq) :=
  if cfg.numOutputs = 0 then []
  else
    (if cfg.leftoverChunks ≠ 0 then
        (List.range cfg.usedThreads).map fun thread =>
          (thread, cfg.leftoverReq inBuf numInputs add thread)
      else []) ++
      if cfg.fullChunksPerThread ≠ 0 then
        (List.range cfg.numThreads).map fun thread =>
          (thread, cfg.chunksReq inBuf numInputs add thread)
      else []

/-- What `run_kernel` stores in `procRefs`. -/
def kernelRefs : ℕ :=
  if cfg.leftoverChunks ≠ 0 then
    (if cfg.fullChunksPerThread ≠ 0 then cfg.numThreads else 0) + cfg.usedThreads
  else cfg.numThreads

end CpuConfig

/-! ## Workers -/

/-- `memset` of an output region. -/
def memsetBlocks (dst len : ℕ) : Step ℕ Block := fun memory address =>
  if dst ≤ address ∧ address < dst + len then 0 else memory address

namespace CpuConfig

variable (cfg : CpuConfig)

/-- The kernel adds to each block of an output region the blocks of the packed inputs there, each
multiplied by the coefficient of its input. -/
def mul_add_multi (src : ℕ → Block) (coefficients : ℕ → Gf16) (numInputs dst input len : ℕ) :
    Step ℕ Block := fun memory address =>
  if dst ≤ address ∧ address < dst + len then
    memory address + ∑ region ∈ Finset.range numInputs, coefficients region •
      src (input + (cfg.inputGeometry.inputBase region len +
        cfg.stride * ((address - dst) / cfg.stride) *
          cfg.inputGeometry.interleaveBy region))
  else memory address

/-- The same without coefficients. -/
def add_multi (src : ℕ → Block) (numInputs dst input len : ℕ) : Step ℕ Block :=
  cfg.mul_add_multi src (fun _ => 1) numInputs dst input len

/-- The loop of a worker over an output in a round. An output with the exponent zero adds its inputs
as they are, unless it is the very last. -/
def workerOutput (src : ℕ → Block) (procCoeffs : ℕ → Gf16) (req : ComputeReq) (round out : ℕ) :
    List (Step ℕ Block) :=
  let procSize := min (req.len - round * cfg.chunkLen) cfg.chunkLen
  let srcPtr := req.input + round * cfg.chunkLen * cfg.inputBatchSize
  let dstPtr := req.output + (out * procSize + round * req.numOutputs * cfg.chunkLen)
  let vals := fun region => procCoeffs (req.firstOutput * cfg.inputBatchSize +
    (out * cfg.inputBatchSize + region))
  (if req.add then [] else [memsetBlocks dstPtr procSize]) ++
    if (round + 1 = req.numChunks ∧ out + 1 = req.numOutputs) ∨
        cfg.outputExponents.getD (req.firstOutput + out) 0 ≠ 0 then
      [cfg.mul_add_multi src vals req.numInputs dstPtr srcPtr procSize]
    else [cfg.add_multi src req.numInputs dstPtr srcPtr procSize]

def compute_worker (src : ℕ → Block) (procCoeffs : ℕ → Gf16) (req : ComputeReq) :
    List (Step ℕ Block) :=
  (List.range req.numChunks).flatMap fun round =>
    (List.range req.numOutputs).flatMap fun out =>
      cfg.workerOutput src procCoeffs req round out

end CpuConfig

/-! ## Staging -/

/-- A block of an input, which is filled up with zeros behind the input. -/
def inputWords (stride : ℕ) (buffer : Buffer) (block : ℕ) : Block := fun word =>
  gf16OfNat ((buffer.getD (block * stride + 2 * word) 0).toNat +
    256 * (buffer.getD (block * stride + 2 * word + 1) 0).toNat)

/-- A staging area, with the inputs that are staged in it. -/
structure Staging where
  src : ℕ → Block
  procCoeffs : ℕ → Gf16
  isActive : Bool
  procRefs : ℕ
  inputs : List CpuInput

/-- A message to the transfer thread, without an input for a flush. -/
structure Transfer where
  src : Option Buffer
  index : ℕ
  submitInBufs : ℕ
  inBufId : ℕ

/-- A batch that the kernel was run on. -/
structure Batch where
  inBuf : ℕ
  inputs : List CpuInput
  add : Bool

/-- The backend, with the inputs that were added and the batches that the kernel was run on. The
requests in the queues of the workers are kept in the order in which they were sent. -/
structure PAR2ProcCPU where
  staging : ℕ → Staging
  currentStagingArea : ℕ
  currentStagingInputs : ℕ
  stagingActiveCount : ℕ
  processingAdd : Bool
  transferThread : List Transfer
  thWorkers : List (ℕ × ComputeReq)
  memProcessing : ℕ → Block
  queueProc : List ℕ
  added : List CpuInput
  kernels : List Batch

namespace PAR2ProcCPU

variable (cfg : CpuConfig) (checksum : Buffer → Block)

/-- What is packed for an input: its blocks, and the block of its checksum. -/
def preparedBlock (buffer : Buffer) (block : ℕ) : Block :=
  if block < cfg.inputGeometry.sliceBlocks then inputWords cfg.stride buffer block
  else checksum buffer

/-- `prepare_packed_cksum` -/
def prepare (buffer : Buffer) (index : ℕ) : List (Step ℕ Block) :=
  (List.range cfg.inputGeometry.inputBlocks).map fun block memory =>
    Function.update memory (cfg.inputGeometry.slot index block)
      (preparedBlock cfg checksum buffer block)

/-- `set_coeffs` -/
def set_coeffs (idx : ℕ) (input : CpuInput) (coeffs : ℕ → Gf16) : ℕ → Gf16 :=
  (List.range cfg.numOutputs).foldl (fun coeffs out =>
    Function.update coeffs (idx + out * cfg.inputBatchSize) (input.coeff cfg out)) coeffs

/-- A list of coefficients may be given when the recovery slices were set without exponents. -/
def Accepted (input : CpuInput) : Prop :=
  match input.coefficients with
  | .inputNum _ => True
  | .coeffs _ => ∀ exponent ∈ cfg.outputExponents, exponent = 1

instance (input : CpuInput) : Decidable (Accepted cfg input) :=
  match input with
  | ⟨_, .inputNum _⟩ => instDecidableTrue
  | ⟨_, .coeffs _⟩ =>
    inferInstanceAs (Decidable (∀ exponent ∈ cfg.outputExponents, exponent = 1))

variable (state : PAR2ProcCPU)

/-- The current area is locked until it has been processed, and the next one is taken. -/
def submit : PAR2ProcCPU :=
  { state with
    staging := Function.update state.staging state.currentStagingArea
      { state.staging state.currentStagingArea with isActive := true }
    stagingActiveCount := state.stagingActiveCount + 1
    currentStagingInputs := 0
    currentStagingArea :=
      if state.currentStagingArea + 1 = cfg.stagingAreas then 0
      else state.currentStagingArea + 1 }

/-- A batch is submitted when it is full, or early when nothing is processed. -/
def Submits (flush : Bool) (inputs : ℕ) : Prop :=
  flush = true ∨ inputs = cfg.inputBatchSize ∨
    state.stagingActiveCount = 0 ∧ cfg.stagingAreas > 1 ∧ inputs ≥ cfg.minInBatchSize

instance (flush : Bool) (inputs : ℕ) : Decidable (state.Submits cfg flush inputs) :=
  instDecidableOr

def _addInput (input : CpuInput) (flush : Bool) : PAR2ProcCPU :=
  let area := state.staging state.currentStagingArea
  let index := state.currentStagingInputs
  let submits := state.Submits cfg flush (index + 1)
  let after : PAR2ProcCPU :=
    { state with
      staging := Function.update state.staging state.currentStagingArea
        { area with
          procCoeffs := set_coeffs cfg index input area.procCoeffs
          inputs := area.inputs.take index ++ [input] }
      currentStagingInputs := index + 1
      transferThread := state.transferThread ++
        [⟨some input.buffer, index, if submits then index + 1 else 0, state.currentStagingArea⟩]
      added := state.added ++ [input] }
  if submits then after.submit cfg else after

def flush : PAR2ProcCPU :=
  if state.currentStagingInputs = 0 then state
  else
    submit cfg
      { state with
        transferThread := state.transferThread ++
          [⟨none, 0, state.currentStagingInputs, state.currentStagingArea⟩] }

/-- `run_kernel`, which does nothing without outputs. -/
def run_kernel (inBuf numInputs : ℕ) : PAR2ProcCPU :=
  if cfg.numOutputs = 0 then state
  else
    { state with
      staging := Function.update state.staging inBuf
        { state.staging inBuf with procRefs := cfg.kernelRefs }
      processingAdd := true
      thWorkers := state.thWorkers ++ cfg.run_kernel inBuf numInputs state.processingAdd
      kernels := state.kernels ++ [⟨inBuf, (state.staging inBuf).inputs, state.processingAdd⟩] }

/-- The transfer thread takes up a message. -/
def transfer_slice (data : Transfer) : PAR2ProcCPU :=
  let after : PAR2ProcCPU :=
    match data.src with
    | some buffer =>
      { state with
        staging := Function.update state.staging data.inBufId
          { state.staging data.inBufId with
            src := perform (prepare cfg checksum buffer data.index)
              (state.staging data.inBufId).src } }
    | none => state
  if data.submitInBufs ≠ 0 then after.run_kernel cfg data.inBufId data.submitInBufs else after

/-- A worker is done with a request, and the last one for an area tells the controller. -/
def compute (req : ComputeReq) : PAR2ProcCPU :=
  let area := state.staging req.procIdx
  { state with
    memProcessing :=
      perform (cfg.compute_worker area.src area.procCoeffs req) state.memProcessing
    staging := Function.update state.staging req.procIdx
      { area with procRefs := area.procRefs - 1 }
    queueProc := if area.procRefs ≤ 1 then state.queueProc ++ [req.procIdx] else state.queueProc }

def _notifyProc (procIdx : ℕ) : PAR2ProcCPU :=
  { state with
    stagingActiveCount := state.stagingActiveCount - 1
    staging := Function.update state.staging procIdx
      { state.staging procIdx with isActive := false } }

/-! ## Actions -/

/-- The place of a request says which worker is done with it. -/
inductive CpuAction where
  | addInput (input : CpuInput) (flush : Bool)
  | flush
  | transfer
  | work (place : ℕ)
  | notifyProc (procIdx : ℕ)

/-- An input is added to an area that is not being processed. A worker takes its requests in the
order in which they were sent. -/
def step : PAR2ProcCPU → CpuAction → Option PAR2ProcCPU
  | state, .addInput input flush =>
    if (state.staging state.currentStagingArea).isActive = false ∧ Accepted cfg input then
      some (state._addInput cfg input flush)
    else none
  | state, .flush => some (state.flush cfg)
  | state, .transfer =>
    match state.transferThread with
    | [] => none
    | data :: rest => some ({ state with transferThread := rest }.transfer_slice cfg checksum data)
  | state, .work place =>
    match state.thWorkers[place]? with
    | none => none
    | some (thread, req) =>
      if ∀ earlier ∈ state.thWorkers.take place, earlier.1 ≠ thread then
        some ({ state with thWorkers := state.thWorkers.eraseIdx place }.compute cfg req)
      else none
  | state, .notifyProc procIdx =>
    if procIdx ∈ state.queueProc then
      some ({ state with queueProc := state.queueProc.erase procIdx }._notifyProc procIdx)
    else none

/-- A backend after `init`, with whatever its memory holds. -/
def start (memory : ℕ → Block) (areas : ℕ → ℕ → Block) (coeffs : ℕ → ℕ → Gf16) : PAR2ProcCPU where
  staging area := ⟨areas area, coeffs area, false, 0, []⟩
  currentStagingArea := 0
  currentStagingInputs := 0
  stagingActiveCount := 0
  processingAdd := false
  transferThread := []
  thWorkers := []
  memProcessing := memory
  queueProc := []
  added := []
  kernels := []

end PAR2ProcCPU

end Par3
