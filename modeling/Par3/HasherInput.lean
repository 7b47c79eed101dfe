import Mathlib.Data.Nat.Size
import Par3.Bytes

/-!
# Hashing files

The hasher of input files computes two hashes at once: that of the whole file, and that of the slice
that is being read. Both take blocks of 64 bytes, and the blocks of a slice begin at an offset from
those of the file. The block function of MD5 is a parameter; CRC32 is taken byte by byte.
-/
namespace Par3

/-- The state of MD5 and its block function. -/
structure MD5 where
  State : Type
  init : State
  process_block : State → Buffer → State
  bytes : State → Buffer
  bytes_length : ∀ state, (bytes state).length = 16

def MD5_BLOCKSIZE : ℕ := 64

/-- Bytes are copied over others. -/
def memcpy (target : Buffer) (offset : ℕ) (source : Buffer) : Buffer :=
  target.take offset ++ source ++ target.drop (offset + source.length)

/-! ## CRC32 -/

/-- One bit of a reflected CRC. -/
def crcBit (crc : BitVec 32) : BitVec 32 :=
  (crc >>> 1) ^^^ (if crc.getLsbD 0 then 0xEDB88320 else 0)

def crcByte (crc : BitVec 32) (byte : UInt8) : BitVec 32 :=
  crcBit^[8] (crc ^^^ byte.toBitVec.setWidth 32)

def crc_init : BitVec 32 := 0xFFFFFFFF

def crc_process_block (crc : BitVec 32) (block : Buffer) : BitVec 32 := block.foldl crcByte crc

def crc_finish (crc : BitVec 32) (rest : Buffer) : BitVec 32 := ~~~(rest.foldl crcByte crc)

/-- The loop of `crc_multiply`, with the number of rounds that are left. -/
def crcMultiplyLoop : ℕ → BitVec 32 → BitVec 32 → BitVec 32 → BitVec 32
  | 0, a, b, res => res ^^^ (if b.getLsbD 31 then a else 0)
  | rounds + 1, a, b, res =>
    crcMultiplyLoop rounds (crcBit a) (b <<< 1) (res ^^^ (if b.getLsbD 31 then a else 0))

def crc_multiply (a b : BitVec 32) : BitVec 32 := crcMultiplyLoop 31 a b 0

def crc_power : List (BitVec 32) := [
  0x00800000, 0x00008000, 0xedb88320, 0xb1e6b092, 0xa06a2517, 0xed627dae, 0x88d14467, 0xd7bbfe6a,
  0xec447f11, 0x8e7ea170, 0x6427800e, 0x4d47bae0, 0x09fe548f, 0x83852d0f, 0x30362f1a, 0x7b5a9cc3,
  0x31fec169, 0x9fec022a, 0x6c8dedc4, 0x15d6874d, 0x5fde7a4e, 0xbad90e37, 0x2e4e5eef, 0x4eaba214,
  0xa8a472c0, 0x429a969e, 0x148d302a, 0xc40ba6d0, 0xc4e22c3c, 0x40000000, 0x20000000, 0x08000000]

/-- The loop of `crc_zeroPad`, over the bits of a number. -/
def crcZeroPadLoop : ℕ → BitVec 32 → ℕ → ℕ → BitVec 32
  | 0, crc, _, _ => crc
  | rounds + 1, crc, zeroPad, power =>
    if zeroPad ≠ 0 then
      crcZeroPadLoop rounds
        (if zeroPad &&& 1 ≠ 0 then crc_multiply crc (crc_power.getD power 0) else crc) (zeroPad >>> 1)
        ((power + 1) &&& 31)
    else crc

def crc_zeroPad (crc : BitVec 32) (zeroPad : ℕ) : BitVec 32 :=
  ~~~(crcZeroPadLoop zeroPad.size (~~~crc) zeroPad 0)

/-! ## The last block -/

variable (md5 : MD5)

/-- What the loop of `md5_final_block` works on. -/
structure FinalLoop where
  state : md5.State
  block : Buffer
  totalLength : ℕ
  remaining : ℕ
  zeroPad : ℕ
  loopState : ℕ

/-- Before the block is processed. -/
def FinalLoop.prepare (loop : FinalLoop md5) : FinalLoop md5 :=
  let loop := if loop.loopState = 1 ∧ loop.zeroPad < 64 then { loop with loopState := 2 } else loop
  let loop :=
    if loop.loopState = 2 then
      let remaining := loop.totalLength % 64
      let block := loop.block.set remaining 0x80
      if remaining + 1 ≤ 64 - 8 then
        { loop with block := block, remaining := remaining + 1, loopState := 4 }
      else { loop with block := block, remaining := 0, loopState := 3 }
    else loop
  if loop.loopState = 4 then
    let block := memcpy loop.block loop.remaining (List.replicate (64 - 8 - loop.remaining) 0)
    { loop with
      totalLength := loop.totalLength * 8 % 2 ^ 64
      block := memcpy block (64 - 8) (toLittleEndian 8 (loop.totalLength * 8 % 2 ^ 64)) }
  else loop

/-- After the block was processed, but for the last one. -/
def FinalLoop.advance (loop : FinalLoop md5) : FinalLoop md5 :=
  if loop.loopState = 3 then { loop with loopState := 4 }
  else if loop.loopState = 1 then { loop with zeroPad := loop.zeroPad - 64 }
  else if loop.loopState = 0 then
    { loop with
      block := List.replicate 64 0
      zeroPad := loop.zeroPad - (64 - loop.remaining)
      loopState := 1 }
  else loop

/-- The loop of `md5_final_block`, in at most so many rounds. -/
def FinalLoop.run : ℕ → FinalLoop md5 → md5.State
  | 0, loop => loop.state
  | rounds + 1, loop =>
    let loop := loop.prepare
    let loop := { loop with state := md5.process_block loop.state loop.block }
    if loop.loopState = 4 then loop.state
    else FinalLoop.run rounds loop.advance

def md5_final_block (state : md5.State) (data : Buffer) (totalLength zeroPad : ℕ) : md5.State :=
  let remaining := totalLength % 64
  FinalLoop.run md5 (zeroPad + 4)
    { state := state
      block := data.take remaining ++ List.replicate (64 - remaining) 0
      totalLength := totalLength + zeroPad
      remaining := remaining
      zeroPad := zeroPad
      loopState := if remaining + zeroPad < 64 then 2 else 0 }

/-! ## Both hashes -/

structure HasherInput where
  tmp : Buffer
  md5Block : md5.State
  md5File : md5.State
  crcState : BitVec 32
  tmpLen : ℕ
  posOffset : ℕ
  dataLenBlock : ℕ
  dataLenFile : ℕ

namespace HasherInput

/-- A new hasher; its memory can hold anything. -/
def reset (memory : Buffer) : HasherInput md5 where
  tmp := memory
  md5Block := md5.init
  md5File := md5.init
  crcState := crc_init
  tmpLen := 0
  posOffset := 0
  dataLenBlock := 0
  dataLenFile := 0

variable {md5}
variable (self : HasherInput md5)

/-- `crc_process_block` and `md5_update_block_x2` -/
def processBlocks (block file : Buffer) : HasherInput md5 :=
  { self with
    crcState := crc_process_block self.crcState (block.take MD5_BLOCKSIZE)
    md5Block := md5.process_block self.md5Block (block.take MD5_BLOCKSIZE)
    md5File := md5.process_block self.md5File (file.take MD5_BLOCKSIZE) }

/-- The data that is left in `tmp` comes first. Nothing is left to do when all data went there. -/
def fillTmp : ℕ → HasherInput md5 → Buffer → HasherInput md5 × Option Buffer
  | 0, self, _ => (self, none)
  | rounds + 1, self, data =>
    let wanted := MD5_BLOCKSIZE + self.posOffset - self.tmpLen
    if data.length < wanted then
      ({ self with
        tmp := memcpy self.tmp self.tmpLen data
        tmpLen := self.tmpLen + data.length }, none)
    else if self.tmpLen ≤ self.posOffset then
      let wanted := MD5_BLOCKSIZE - self.tmpLen
      let tmp := memcpy self.tmp self.tmpLen (data.take wanted)
      (({ self with tmp := tmp }).processBlocks data tmp, some (data.drop wanted))
    else
      let tmp := memcpy self.tmp self.tmpLen (data.take wanted)
      let self := ({ self with tmp := tmp }).processBlocks (tmp.drop self.posOffset) tmp
      fillTmp rounds
        { self with
          tmp := memcpy tmp 0 ((tmp.drop MD5_BLOCKSIZE).take self.posOffset)
          tmpLen := self.posOffset }
        (data.drop wanted)

/-- Whole blocks straight from the data, in at most so many rounds. The rest goes to `tmp`. -/
def updateBlocks : ℕ → HasherInput md5 → Buffer → HasherInput md5
  | 0, self, data => { self with tmp := memcpy self.tmp 0 data, tmpLen := data.length }
  | rounds + 1, self, data =>
    if data.length ≥ MD5_BLOCKSIZE + self.posOffset then
      updateBlocks rounds (self.processBlocks (data.drop self.posOffset) data)
        (data.drop MD5_BLOCKSIZE)
    else { self with tmp := memcpy self.tmp 0 data, tmpLen := data.length }

def update (data : Buffer) : HasherInput md5 :=
  let self := { self with
    dataLenBlock := self.dataLenBlock + data.length
    dataLenFile := self.dataLenFile + data.length }
  if self.tmpLen ≠ 0 then
    match fillTmp 2 self data with
    | (self, none) => self
    | (self, some rest) => self.updateBlocks rest.length rest
  else self.updateBlocks data.length data

def resetBlock : HasherInput md5 :=
  let self :=
    if self.tmpLen ≥ MD5_BLOCKSIZE then
      { self with
        md5Block := md5.process_block self.md5Block (self.tmp.take MD5_BLOCKSIZE)
        md5File := md5.process_block self.md5File (self.tmp.take MD5_BLOCKSIZE)
        tmpLen := self.tmpLen - MD5_BLOCKSIZE
        tmp := memcpy self.tmp 0 ((self.tmp.drop MD5_BLOCKSIZE).take (self.tmpLen - MD5_BLOCKSIZE)) }
    else self
  { self with
    md5Block := md5.init
    crcState := crc_init
    posOffset := self.tmpLen
    dataLenBlock := 0 }

/-- The hashes of a slice, and the hasher for the next one. -/
def getBlock (zeroPad : ℕ) : Buffer × HasherInput md5 :=
  let rest := self.tmp.drop self.posOffset
  let crc := crc_zeroPad
    (crc_finish self.crcState (rest.take (self.dataLenBlock % MD5_BLOCKSIZE))) zeroPad
  (md5.bytes (md5_final_block md5 self.md5Block rest self.dataLenBlock zeroPad) ++
    toLittleEndian 4 crc.toNat, self.resetBlock)

def end_ : Buffer :=
  let md5File :=
    if self.tmpLen ≥ MD5_BLOCKSIZE then
      md5.process_block self.md5File (self.tmp.take MD5_BLOCKSIZE)
    else self.md5File
  md5.bytes (md5_final_block md5 md5File self.tmp self.dataLenFile 0)

end HasherInput

/-! ## Slices -/

/-- `input_blockHash`, with the memory that its pointer goes through -/
structure InputBlockHash where
  size : ℕ
  pos : ℕ
  count : ℕ
  ptr : ℕ
  ifscData : Buffer

/-- The hasher of the addon. -/
structure InputHasher where
  hasher : HasherInput md5
  bh : InputBlockHash

namespace InputHasher

/-- `HasherInputNew` -/
def create (memory : Buffer) (sliceSize : ℕ) (ifscData : Buffer) : InputHasher md5 where
  hasher := HasherInput.reset md5 memory
  bh := { size := sliceSize, pos := 0, count := ifscData.length / 20, ptr := 0, ifscData := ifscData }

variable {md5}

/-- The hashes of a slice are stored, unless there are too many. -/
def storeBlock (self : InputHasher md5) (zeroPad : ℕ) : InputHasher md5 :=
  if self.bh.count ≠ 0 then
    let (hashes, hasher) := self.hasher.getBlock zeroPad
    { hasher := hasher
      bh := { self.bh with
        ifscData := memcpy self.bh.ifscData self.bh.ptr hashes
        ptr := self.bh.ptr + 20
        count := self.bh.count - 1 } }
  else self

/-- The loop of `thread_func` over the slices that end in the data, in at most so many rounds. -/
def feed : ℕ → InputHasher md5 → Buffer → InputHasher md5
  | 0, self, _ => self
  | rounds + 1, self, src =>
    let blockLeft := self.bh.size - self.bh.pos
    if src.length ≥ blockLeft then
      feed rounds
        (storeBlock
          { hasher := self.hasher.update (src.take blockLeft)
            bh := { self.bh with pos := 0 } } 0)
        (src.drop blockLeft)
    else
      { hasher := if src.length ≠ 0 then self.hasher.update src else self.hasher
        bh := { self.bh with pos := self.bh.pos + src.length } }

/-- One call of `update` -/
def update (self : InputHasher md5) (src : Buffer) : InputHasher md5 := feed (src.length + 1) self src

/-- The checksums of the slices and the hash of the file. -/
def End (self : InputHasher md5) : Buffer × Buffer :=
  let self := self.storeBlock (self.bh.size - self.bh.pos)
  (self.bh.ifscData, self.hasher.end_)

end InputHasher

end Par3
