import Par3.Foundations.FallibleLoops
import Par3.Bytes
import Par3.PackedLayout

/-!
# Packing an input

An input is copied to the packed buffer block by block, each block transformed for the kernel that
will read it. Blocks behind the end of the input are cleared, and a checksum of the input may be
kept behind the slice. A call may process a part of the input; the next call continues there.

The buffer is seen as the contents of its blocks, by their addresses. A call that has processed
its part returns at once, from wherever it is.
-/
namespace Par3

/-- How a kernel lays out a block, and back. -/
structure BlockTransform where
  prepareBlock : Buffer → Buffer
  prepareBlockU : Buffer → Buffer
  finishBlock : Buffer → Buffer
  finishBlockU : Buffer → ℕ → Buffer

/-- The checksum functions of a kernel. `checksumExp` multiplies by a power of two. -/
structure ChecksumTransform where
  checksumBlock : Buffer → Buffer → Buffer
  checksumBlockU : Buffer → Buffer → Buffer
  checksumExp : Buffer → ℕ → Buffer
  prepareChecksum : Buffer → Buffer
  inlineFinishBlock : Buffer → Buffer

/-- The packed buffer, by the addresses of its blocks. -/
abbrev PackedBuffer := ℕ → Buffer

structure PrepareState where
  dst : PackedBuffer
  checksum : Buffer
  partLeft : ℕ

/-- The positions of `for(; pos<limit; pos+=blockLen)`. -/
def blockPositions (blockLen pos limit : ℕ) : List ℕ :=
  List.range' pos ((limit - pos + blockLen - 1) / blockLen) blockLen

/-- The value of `pos` behind that loop. -/
def positionBehind (blockLen pos limit : ℕ) : ℕ :=
  pos + (limit - pos + blockLen - 1) / blockLen * blockLen

namespace PackedGeometry

variable (geom : PackedGeometry) (transform : BlockTransform) (check : ChecksumTransform)

/-! ## The loop bodies -/

/-- Leave the function when the part is done. -/
def unlessDone (state next : PrepareState) : Except PrepareState PrepareState :=
  if state.partLeft = 0 then .error state else .ok next

/-- Copy a block. -/
def copyBlock (address : ℕ) (block : Buffer) (state : PrepareState) :
    Except PrepareState PrepareState :=
  unlessDone state
    { dst := Function.update state.dst address (transform.prepareBlock block)
      checksum :=
        if geom.hasChecksum then check.checksumBlock block state.checksum else state.checksum
      partLeft := state.partLeft - geom.blockLen }

/-- Copy what is left of the input, which is less than a block. -/
def copyRest (address : ℕ) (rest : Buffer) (state : PrepareState) :
    Except PrepareState PrepareState :=
  unlessDone state
    { dst := Function.update state.dst address (transform.prepareBlockU rest)
      checksum :=
        if geom.hasChecksum then check.checksumBlockU rest state.checksum else state.checksum
      partLeft := state.partLeft - geom.blockLen }

/-- Clear a block. -/
def clearBlock (address : ℕ) (state : PrepareState) : Except PrepareState PrepareState :=
  unlessDone state
    { dst := Function.update state.dst address (List.replicate geom.blockLen 0)
      checksum := state.checksum
      partLeft := state.partLeft - geom.blockLen }

/-- Let the checksum skip blocks that are cleared. -/
def skipCleared (bytes : ℕ) (state : PrepareState) : PrepareState :=
  if geom.hasChecksum then
    { state with
      checksum := check.checksumExp state.checksum
        (min bytes state.partLeft / geom.blockLen % 65535) }
  else state

variable (src : Buffer) (inputNum : ℕ)

/-! ## The function -/

/-- The chunks that the input fills. -/
def copyFullChunks (chunk pos : ℕ) (state : PrepareState) : Except PrepareState PrepareState :=
  let fullChunks := src.length / geom.dataChunkLen % 2 ^ 32
  (List.range' chunk (fullChunks - chunk)).foldlM
    (fun state current =>
      (blockPositions geom.blockLen (if current = chunk then pos else 0)
          geom.dataChunkLen).foldlM
        (fun state pos =>
          geom.copyBlock transform check
            (geom.inputBase inputNum geom.chunkLen + geom.chunkStride * current +
              pos * geom.interleaveBy inputNum)
            (slice src (geom.dataChunkLen * current + pos)
              (geom.dataChunkLen * current + pos + geom.blockLen))
            state)
        state)
    state

/-- The lengths of the chunk in which the input ends, without and with its checksum. -/
def finalChunkLens : ℕ × ℕ :=
  (if src.length > geom.sliceLen / geom.dataChunkLen * geom.dataChunkLen then
      geom.sliceLen % geom.dataChunkLen
    else geom.dataChunkLen,
    if src.length > geom.effectiveSliceLen / geom.chunkLen * geom.chunkLen then
      geom.effectiveSliceLen % geom.chunkLen
    else geom.chunkLen)

/-- The chunk in which the input ends. -/
def copyFinalChunk (pos : ℕ) (state : PrepareState) : Except PrepareState PrepareState := do
  let fullChunks := src.length / geom.dataChunkLen % 2 ^ 32
  let remaining := src.length % geom.dataChunkLen
  let len := remaining - remaining % geom.blockLen
  let lastChunkLen := (geom.finalChunkLens src).1
  let effectiveLastChunkLen := (geom.finalChunkLens src).2
  let base := geom.inputBase inputNum effectiveLastChunkLen + geom.chunkStride * fullChunks
  let state ← (blockPositions geom.blockLen pos len).foldlM
    (fun state pos =>
      geom.copyBlock transform check (base + pos * geom.interleaveBy inputNum)
        (slice src (geom.dataChunkLen * fullChunks + pos)
          (geom.dataChunkLen * fullChunks + pos + geom.blockLen))
        state)
    state
  let pos := positionBehind geom.blockLen pos len
  let state ←
    if remaining > pos then
      geom.copyRest transform check (base + len * geom.interleaveBy inputNum)
        (slice src (geom.dataChunkLen * fullChunks + len)
          (geom.dataChunkLen * fullChunks + remaining))
        state
    else pure state
  let pos := if remaining > pos then pos + geom.blockLen else pos
  (blockPositions geom.blockLen pos lastChunkLen).foldlM
    (fun state pos =>
      geom.clearBlock (base + pos * geom.interleaveBy inputNum) state)
    (geom.skipCleared check (lastChunkLen - pos) state)

/-- The chunks behind the input. -/
def clearChunks (chunk pos : ℕ) (state : PrepareState) : Except PrepareState PrepareState := do
  if chunk * geom.dataChunkLen < geom.sliceLen then
    let state := geom.skipCleared check (geom.sliceLen - chunk * geom.dataChunkLen) state
    let fullChunks := geom.sliceLen / geom.dataChunkLen % 2 ^ 32
    let state ← (List.range' chunk (fullChunks - chunk)).foldlM
      (fun state current =>
        (blockPositions geom.blockLen (if current = chunk then pos else 0)
            geom.dataChunkLen).foldlM
          (fun state pos =>
            geom.clearBlock
              (geom.inputBase inputNum geom.chunkLen + geom.chunkStride * current +
                pos * geom.interleaveBy inputNum)
              state)
          state)
      state
    let pos := if chunk < fullChunks then 0 else pos
    (blockPositions geom.blockLen pos (geom.sliceLen % geom.dataChunkLen)).foldlM
      (fun state pos =>
        geom.clearBlock
          (geom.inputBase inputNum geom.effectiveLastChunkLen +
            geom.chunkStride * fullChunks + pos * geom.interleaveBy inputNum)
          state)
      state
  else pure state

/-- The whole function, up to the place where it returns. -/
def prepareBlocks (partOffset : ℕ) (state : PrepareState) : Except PrepareState PrepareState := do
  let fullChunks := src.length / geom.dataChunkLen % 2 ^ 32
  let chunk := partOffset / geom.dataChunkLen % 2 ^ 32
  let pos := partOffset % geom.dataChunkLen
  let state ← geom.copyFullChunks transform check src inputNum chunk pos state
  let pos := if chunk < fullChunks then 0 else pos
  let chunk := max chunk fullChunks
  if src.length % geom.dataChunkLen ≠ 0 ∧ chunk = fullChunks then
    let state ← geom.copyFinalChunk transform check src inputNum pos state
    geom.clearChunks check inputNum (chunk + 1) 0 state
  else geom.clearChunks check inputNum chunk pos state

/-- `gf16_prepare_packed`: the packed buffer and the checksum after the call. -/
def gf16_prepare_packed (dst : PackedBuffer) (partOffset partLen : ℕ) (checksum : Buffer) :
    PackedBuffer × Buffer :=
  let partLeft := if partOffset + partLen = src.length then SIZE_MAX else partLen
  match geom.prepareBlocks transform check src inputNum partOffset ⟨dst, checksum, partLeft⟩ with
  | .error state => (state.dst, state.checksum)
  | .ok state =>
    if geom.hasChecksum ∧ partOffset + partLen = src.length then
      (Function.update state.dst (geom.gf16_checksum_ptr inputNum)
        (check.prepareChecksum state.checksum), state.checksum)
    else (state.dst, state.checksum)

end PackedGeometry

end Par3
