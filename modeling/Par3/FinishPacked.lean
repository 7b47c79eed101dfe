import Par3.PackedBlocks

/-!
# Unpacking an output

An output is copied from the packed buffer back to a slice, block by block. The slice need not end
with a block; the packed buffer has room for the whole block. When a checksum is kept, it is
rewound to the beginning of the slice, the blocks are added to it again, and nothing may be left.
-/
namespace Par3

/-- Memory of bytes. -/
abbrev ByteMemory := ℕ → UInt8

/-- Write bytes behind an offset. -/
def writeBytes (dst : ByteMemory) (offset : ℕ) (bytes : Buffer) : ByteMemory := fun address =>
  if offset ≤ address then (bytes[address - offset]?).getD (dst address) else dst address

structure FinishState where
  dst : ByteMemory
  checksum : Buffer
  partLeft : ℕ

namespace PackedGeometry

variable (geom : PackedGeometry) (transform : BlockTransform) (check : ChecksumTransform)

/-- The geometry of the packed buffer for a slice that does not end with a block. -/
def aligned : PackedGeometry where
  sliceLen := geom.sliceLen + geom.blockLen - 1 -
    (geom.sliceLen + geom.blockLen - 1) % geom.blockLen
  blockLen := geom.blockLen
  inputPackSize := geom.inputPackSize
  chunkLen := geom.chunkLen
  interleaveSize := geom.interleaveSize
  hasChecksum := geom.hasChecksum

/-! ## The loop bodies -/

/-- Leave the function when the part is done. -/
def unlessFinished (state next : FinishState) : Except FinishState FinishState :=
  if state.partLeft = 0 then .error state else .ok next

/-- Copy a block back. -/
def finishBlockAt (position : ℕ) (packed : Buffer) (state : FinishState) :
    Except FinishState FinishState :=
  let block := transform.finishBlock packed
  unlessFinished state
    { dst := writeBytes state.dst position block
      checksum :=
        if geom.hasChecksum then check.checksumBlock block state.checksum else state.checksum
      partLeft := state.partLeft - geom.blockLen }

/-- Copy the bytes back with which the slice ends. -/
def finishRestAt (position remaining : ℕ) (packed : Buffer) (state : FinishState) : FinishState :=
  let rest := transform.finishBlockU packed remaining
  { dst := writeBytes state.dst position rest
    checksum :=
      if geom.hasChecksum then check.checksumBlockU rest state.checksum else state.checksum
    partLeft := state.partLeft }

variable (src : PackedBuffer) (outputNum : ℕ)

/-! ## The function -/

/-- A chunk in which the slice ends before the chunk does: the last block is not whole. -/
def finishShortChunk (chunk pos : ℕ) (state : FinishState) : Except FinishState FinishState := do
  let g := geom.aligned
  let base := g.inputBase outputNum g.chunkLen + g.chunkStride * chunk
  let limit := g.dataChunkLen - g.blockLen
  let state ← (blockPositions g.blockLen pos limit).foldlM
    (fun state pos =>
      geom.finishBlockAt transform check (g.dataChunkLen * chunk + pos)
        (src (base + pos * g.interleaveBy outputNum)) state)
    state
  let pos := positionBehind g.blockLen pos limit
  unlessFinished state
    (geom.finishRestAt transform check (g.dataChunkLen * chunk + pos)
      (geom.sliceLen - g.dataChunkLen * chunk - pos)
      (src (base + pos * g.interleaveBy outputNum)) state)

/-- A chunk that is full. -/
def finishFullChunk (chunk pos : ℕ) (state : FinishState) : Except FinishState FinishState :=
  let g := geom.aligned
  let base := g.inputBase outputNum g.chunkLen + g.chunkStride * chunk
  (blockPositions g.blockLen pos g.dataChunkLen).foldlM
    (fun state pos =>
      geom.finishBlockAt transform check (g.dataChunkLen * chunk + pos)
        (src (base + pos * g.interleaveBy outputNum)) state)
    state

/-- The last chunk, when it is not full. -/
def finishLastChunk (chunk pos remaining : ℕ) (state : FinishState) :
    Except FinishState FinishState := do
  let g := geom.aligned
  let base := g.inputBase outputNum g.effectiveLastChunkLen + g.chunkStride * chunk
  let limit := remaining - remaining % g.blockLen
  let state ← (blockPositions g.blockLen pos limit).foldlM
    (fun state pos =>
      geom.finishBlockAt transform check (g.dataChunkLen * chunk + pos)
        (src (base + pos * g.interleaveBy outputNum)) state)
    state
  let pos := positionBehind g.blockLen pos limit
  unlessFinished state
    (if pos < remaining then
      geom.finishRestAt transform check (g.dataChunkLen * chunk + pos) (remaining - pos)
        (src (base + pos * g.interleaveBy outputNum)) state
    else state)

/-- The whole function, up to the place where it returns. A slice that ends inside a full chunk
leaves nothing for a last chunk; the difference before that is negative. -/
def finishBlocks (partOffset : ℕ) (state : FinishState) : Except FinishState FinishState := do
  let g := geom.aligned
  let fullChunks := g.sliceLen / g.dataChunkLen % 2 ^ 32
  let chunk := partOffset / g.dataChunkLen % 2 ^ 32
  let pos := partOffset % g.dataChunkLen
  let state ← (List.range' chunk (fullChunks - chunk)).foldlM
    (fun state current =>
      if g.dataChunkLen * (current + 1) > geom.sliceLen then
        geom.finishShortChunk transform check src outputNum current
          (if current = chunk then pos else 0) state
      else
        geom.finishFullChunk transform check src outputNum current
          (if current = chunk then pos else 0) state)
    state
  let pos := if chunk < fullChunks then 0 else pos
  let ended := (List.range' chunk (fullChunks - chunk)).any fun current =>
    g.dataChunkLen * (current + 1) > geom.sliceLen
  let remaining : ℤ := if ended then 0 else geom.sliceLen - fullChunks * g.dataChunkLen
  if remaining ≠ 0 then
    geom.finishLastChunk transform check src outputNum fullChunks pos remaining.toNat state
  else pure state

/-- The checksum at the beginning of a part: the first part rewinds it. -/
def rewound (partOffset : ℕ) (checksum : Buffer) : Buffer :=
  if partOffset = 0 then
    check.checksumExp (check.inlineFinishBlock checksum)
      (65535 - geom.aligned.sliceLen / geom.blockLen % 65535)
  else checksum

/-- `gf16_finish_packed`: the slice and the packed buffer after the call, and what it returns. A
call for the whole slice works on a copy of the checksum. -/
def gf16_finish_packed (dst : ByteMemory) (partOffset partLen : ℕ) :
    ByteMemory × PackedBuffer × Bool :=
  let cksumPtr := geom.aligned.gf16_checksum_ptr outputNum
  let checksum :=
    if geom.hasChecksum then geom.rewound check partOffset (src cksumPtr) else []
  let keep (state : FinishState) : PackedBuffer :=
    if geom.hasChecksum ∧ partLen ≠ geom.sliceLen then
      Function.update src cksumPtr state.checksum
    else src
  let partLeft :=
    if partOffset + partLen = geom.sliceLen then partLen + geom.blockLen else partLen
  match geom.finishBlocks transform check src outputNum partOffset ⟨dst, checksum, partLeft⟩ with
  | .error state => (state.dst, keep state, false)
  | .ok state =>
    (state.dst, keep state,
      if geom.hasChecksum ∧ partOffset + partLen = geom.sliceLen then
        state.checksum.all fun byte => byte = 0
      else true)

end PackedGeometry

end Par3
