import Mathlib.Data.Fin.VecNotation
import Par3.HasherInput
import Par3.Md5Lanes

/-!
# Hashing several sources at once

A hasher has so many regions, each with a block of its own for what is left over. Sources are dealt to
hashers of the largest width and a last one, whose regions beyond the sources hash the first of its
sources once more. The block function of MD5 is a parameter, which the kernels apply to each lane.
-/
namespace Par3

/-- The words of one hash. -/
abbrev Md5Words := Fin 4 → BitVec 32

/-- MD5 with a block function. -/
abbrev MD5.ofWords (process_block : Md5Words → Buffer → Md5Words) : MD5 where
  State := Md5Words
  init := ![0x67452301, 0xefcdab89, 0x98badcfe, 0x10325476]
  process_block := process_block
  bytes words := storeDwords 4 fun word => words (Fin.ofNat 4 word)
  bytes_length _ := by simp [storeDwords, List.range_succ]

/-- The words of one lane in one half. -/
def laneWords (state : Md5Vectors) (half lane : ℕ) : Md5Words := fun word => state (half * 4 + word) lane

/-- A kernel, or two of it interleaved. -/
structure Md5Width where
  kernel : Md5Kernel
  interleaved : Bool

/-- `numRegions` -/
def Md5Width.regions (width : Md5Width) : ℕ :=
  if width.interleaved then width.kernel.regions * 2 else width.kernel.regions

/-- `IMD5Multi` -/
structure Md5Hasher where
  tmp : ℕ → Buffer
  tmpLen : ℕ
  dataLen : ℕ
  state : Md5Vectors

section
variable (compress : Md5Words → Buffer → Md5Words) (width : Md5Width)

/-- `md5_process_block`: the input of a lane is in the first or the second half of the pointers. -/
def md5_update_block_mb (state : Md5Vectors) (data : ℕ → Buffer) (offset : ℕ) : Md5Vectors :=
  fun word lane =>
    compress (laneWords state (word / 4) lane)
      (slice (data (word / 4 * width.kernel.regions + lane)) offset (offset + 64)) (Fin.ofNat 4 word)

/-- `md5_final_block`; the memory of its blocks can hold anything. -/
def md5_final_block_mb (memory : ℕ → Buffer) (state : Md5Vectors) (data : ℕ → Buffer)
    (offset totalLength : ℕ) : Md5Vectors :=
  let remaining := totalLength % 64
  let block := fun i =>
    (memcpy (memory i) 0 (slice (data i) offset (offset + remaining))).set remaining 0x80
  let remaining := remaining + 1
  let (state, block, remaining) : Md5Vectors × (ℕ → Buffer) × ℕ :=
    if remaining ≤ 64 - 8 then (state, block, remaining)
    else
      let block := fun i => memcpy (block i) remaining (List.replicate (64 - remaining) 0)
      (md5_update_block_mb compress width state block 0, block, 0)
  let totalLength := totalLength * 8 % 2 ^ 64
  let block := fun i =>
    memcpy (memcpy (block i) remaining (List.replicate (64 - 8 - remaining) 0)) (64 - 8)
      (toLittleEndian 8 totalLength)
  md5_update_block_mb compress width state block 0

def md5_init_mb : Md5Vectors := fun word _ => (MD5.ofWords compress).init (Fin.ofNat 4 word)

namespace Md5Hasher

def reset (memory : ℕ → Buffer) : Md5Hasher where
  tmp := memory
  tmpLen := 0
  dataLen := 0
  state := md5_init_mb compress

/-- The loop over whole blocks, in at most so many rounds, and what is left over. -/
def updateBlocks (data : ℕ → Buffer) (len : ℕ) : ℕ → Md5Hasher → ℕ → Md5Hasher
  | 0, self, _ => self
  | rounds + 1, self, p =>
    if p + (MD5_BLOCKSIZE - 1) < len then
      updateBlocks data len rounds
        { self with state := md5_update_block_mb compress width self.state data p } (p + MD5_BLOCKSIZE)
    else if len - p ≠ 0 then
      { self with
        tmp := fun input => memcpy (self.tmp input) 0 (slice (data input) p len)
        tmpLen := len - p }
    else { self with tmpLen := 0 }

def update (self : Md5Hasher) (data : ℕ → Buffer) (len : ℕ) : Md5Hasher :=
  let self := { self with dataLen := (self.dataLen + len) % 2 ^ 64 }
  if self.tmpLen ≠ 0 then
    let wanted := MD5_BLOCKSIZE - self.tmpLen
    let copy := if len < wanted then len else wanted
    let self := { self with
      tmp := fun input => memcpy (self.tmp input) self.tmpLen (slice (data input) 0 copy) }
    if len < wanted then { self with tmpLen := self.tmpLen + len }
    else
      updateBlocks compress width data len (len + 1)
        { self with state := md5_update_block_mb compress width self.state self.tmp 0 } wanted
  else updateBlocks compress width data len (len + 1) self 0

def end_ (memory : ℕ → Buffer) (self : Md5Hasher) : Md5Hasher :=
  { self with state := md5_final_block_mb compress width memory self.state self.tmp 0 self.dataLen }

end Md5Hasher

end

def Md5Width.get1 (width : Md5Width) (self : Md5Hasher) (index : ℕ) : Buffer :=
  width.kernel.extract self.state index

def Md5Width.get (width : Md5Width) (self : Md5Hasher) : Buffer :=
  width.kernel.extractAll self.state 0 ++
    if width.interleaved then width.kernel.extractAll self.state 1 else []

/-- The hashers of `MD5Multi`, of which the last one may have regions to spare. -/
structure MD5Multi where
  ctx : List Md5Width
  ctx_ne : ctx ≠ []
  lastCtxDataDup : ℕ
  dup_lt : lastCtxDataDup < (ctx.getLast ctx_ne).regions

namespace MD5Multi

/-- The number of sources. -/
def sources (multi : MD5Multi) : ℕ := (multi.ctx.map Md5Width.regions).sum - multi.lastCtxDataDup

/-- `lastCtxData` -/
def lastCtxData (lastNumRegions : ℕ) (dataPtr : ℕ → Buffer) : ℕ → Buffer := fun i =>
  if i < lastNumRegions then dataPtr i else dataPtr 0

section
variable (compress : Md5Words → Buffer → Md5Words) (lastCtxDataDup : ℕ)

/-- `update` from one hasher on -/
def update : List (Md5Width × Md5Hasher) → (ℕ → Buffer) → ℕ → List (Md5Width × Md5Hasher)
  | [], _, _ => []
  | [(width, last)], dataPtr, len =>
    [(width, last.update compress width
      (if lastCtxDataDup ≠ 0 then lastCtxData (width.regions - lastCtxDataDup) dataPtr else dataPtr) len)]
  | (width, first) :: others, dataPtr, len =>
    (width, first.update compress width dataPtr len) ::
      update others (fun i => dataPtr (i + width.regions)) len

def end_ (memory : ℕ → ℕ → Buffer) (ctx : List (Md5Width × Md5Hasher)) : List (Md5Width × Md5Hasher) :=
  ctx.mapIdx fun index hasher => (hasher.1, hasher.2.end_ compress hasher.1 (memory index))

/-- What `get1` writes, if anything. -/
def get1 : List (Md5Width × Md5Hasher) → ℕ → Option Buffer
  | [], _ => none
  | (width, hasher) :: others, index =>
    if index < width.regions then some (width.get1 hasher index)
    else get1 others (index - width.regions)

/-- What `get` writes -/
def get : List (Md5Width × Md5Hasher) → Buffer
  | [] => []
  | [(width, last)] =>
    if lastCtxDataDup ≠ 0 then (width.get last).take (16 * (width.regions - lastCtxDataDup))
    else width.get last
  | (width, first) :: others => width.get first ++ get others

/-- The hashers of new object. -/
def reset (memory : ℕ → ℕ → Buffer) (multi : MD5Multi) : List (Md5Width × Md5Hasher) :=
  multi.ctx.mapIdx fun index width => (width, Md5Hasher.reset compress (memory index))

end

end MD5Multi

/-! ## The choice of the hashers -/

inductive MD5MultiLevels
  | scalar
  | sse
  | avx2
  | xop
  | avx512f
  | avx512vl
  | neon
  | sve2
  deriving DecidableEq

/-- The position in the enumeration. -/
def MD5MultiLevels.rank : MD5MultiLevels → ℕ
  | scalar => 0
  | sse => 1
  | avx2 => 2
  | xop => 3
  | avx512f => 4
  | avx512vl => 5
  | neon => 6
  | sve2 => 7

/-- The platforms; for ARM with the vectors of SVE2, in multiples of four words. -/
inductive Md5Platform
  | amd64
  | x86
  | arm (quarter : ℕ) (quarter_pos : 0 < quarter)
  | other

namespace MD5Multi

open MD5MultiLevels

/-- `ADD_CTX` -/
def largest (level : MD5MultiLevels) : Md5Platform → Md5Width
  | .amd64 =>
    if level.rank ≥ rank avx512f then ⟨.avx512, true⟩
    else if level = xop then ⟨.sse, true⟩
    else if level = avx2 then ⟨.avx2, true⟩
    else if level = sse then ⟨.sse, true⟩
    else ⟨.scalar, true⟩
  | .x86 =>
    if level.rank ≥ rank avx512f then ⟨.avx512, false⟩
    else if level = xop then ⟨.sse, false⟩
    else if level = avx2 then ⟨.avx2, false⟩
    else if level = sse then ⟨.sse, false⟩
    else ⟨.scalar, true⟩
  | .arm quarter quarter_pos =>
    if level = sve2 then ⟨.sve2 quarter quarter_pos, true⟩
    else if level = neon then ⟨.neon, true⟩
    else ⟨.scalar, true⟩
  | .other => ⟨.scalar, true⟩

/-- Hashers of the largest width, in at most so many rounds, and the sources that are left. -/
def addCtx (width : Md5Width) : ℕ → ℕ → List Md5Width × ℕ
  | 0, srcCount => ([], srcCount)
  | rounds + 1, srcCount =>
    if srcCount ≥ width.regions then
      let (ctx, rest) := addCtx width rounds (srcCount - width.regions)
      (width :: ctx, rest)
    else ([], srcCount)

/-- `ADD_LAST_CTX`, in order, each with its condition. -/
def lastCtx (level : MD5MultiLevels) (platform : Md5Platform) : List (Bool × Md5Width) :=
  let x86 : List (Bool × Md5Width) := [
    (level = avx512vl, ⟨.sse, false⟩),
    (level = xop, ⟨.sse, false⟩),
    (level.rank ≥ rank sse, ⟨.sse, false⟩),
    (level = avx512vl, ⟨.avx2, false⟩),
    (level.rank ≥ rank avx2 ∧ level ≠ xop, ⟨.avx2, false⟩),
    (level.rank ≥ rank avx512f, ⟨.avx512, false⟩)]
  let interleaved : List (Bool × Md5Width) := [
    (level = xop, ⟨.sse, true⟩),
    (level.rank ≥ rank sse, ⟨.sse, true⟩),
    (level.rank ≥ rank avx2 ∧ level ≠ xop, ⟨.avx2, true⟩),
    (level.rank ≥ rank avx512f, ⟨.avx512, true⟩)]
  [(true, ⟨.scalar, false⟩), (true, ⟨.scalar, true⟩)] ++
    match platform with
    | .amd64 => x86 ++ interleaved
    | .x86 => x86
    | .arm quarter quarter_pos => [
        (level = neon, ⟨.neon, false⟩),
        (level = sve2, ⟨.sve2 quarter quarter_pos, false⟩),
        (level = neon, ⟨.neon, true⟩),
        (level = sve2, ⟨.sve2 quarter quarter_pos, true⟩)]
    | .other => []

/-- The hashers that the constructor makes, and `lastCtxDataDup`. -/
def hashers (level : MD5MultiLevels) (platform : Md5Platform) (srcCount : ℕ) : Option (List Md5Width × ℕ) :=
  let (ctx, rest) := addCtx (largest level platform) srcCount srcCount
  if rest = 0 then some (ctx, 0)
  else
    ((lastCtx level platform).find? fun candidate => candidate.1 && rest ≤ candidate.2.regions).map
      fun candidate => (ctx ++ [candidate.2], candidate.2.regions - rest)

end MD5Multi

end Par3
