import Par3.Packet
import Par3.Words
import Mathlib.Algebra.BigOperators.Group.Finset.Basic

/-!
# Archives written by create

Create cuts every file in blocks, the last of which may be short, and numbers the blocks
through all files. Recovery block `r` is the Cauchy combination of the zero-padded blocks
with row index `N + r`. The archive holds the header packets, then one DATA packet for
each block, whose body carries only the bytes of the file, then one RECOVERY packet for
each recovery block. An input set without blocks gets the header packets alone.

Damage is described packet by packet: a DATA or RECOVERY packet survives intact, is
lost, or is replaced by a packet of its type whose checksum fails.
-/

namespace Par3

/-- Cut a file in pieces of `size` bytes; the last one holds what remains. -/
def cut (size : ℕ) (contents : Buffer) : List Buffer :=
  if size = 0 ∨ contents.length = 0 then []
  else contents.take size :: cut size (contents.drop size)
termination_by contents.length
decreasing_by
  rw [List.length_drop]
  omega

theorem cut_nil (size : ℕ) : cut size [] = [] := by
  rw [cut]
  simp

theorem cut_cons {size : ℕ} {contents : Buffer} (pos : 0 < size)
    (nonempty : contents.length ≠ 0) :
    cut size contents = contents.take size :: cut size (contents.drop size) := by
  rw [cut, if_neg]
  omega

/-- The pieces are not empty and not larger than asked for, and together they are the file. -/
theorem cut_spec (size : ℕ) (pos : 0 < size) (contents : Buffer) :
    (cut size contents).flatten = contents ∧
      ∀ piece ∈ cut size contents, piece ≠ [] ∧ piece.length ≤ size := by
  induction contents using cut.induct size with
  | case1 contents empty =>
    have nil : contents = [] := List.length_eq_zero_iff.mp (by omega)
    subst nil
    simp [cut_nil]
  | case2 contents nonempty ih =>
    obtain ⟨whole, bounded⟩ := ih
    rw [cut_cons pos (by omega)]
    refine ⟨by rw [List.flatten_cons, whole, List.take_append_drop], ?_⟩
    intro piece member
    rcases List.mem_cons.mp member with first | later
    · subst first
      constructor
      · intro empty
        have length := congrArg List.length empty
        rw [List.length_take, List.length_nil] at length
        omega
      · rw [List.length_take]
        omega
    · exact bounded piece later

theorem cut_length (size : ℕ) (pos : 0 < size) (contents : Buffer) :
    (cut size contents).length = (contents.length + size - 1) / size := by
  induction contents using cut.induct size with
  | case1 contents empty =>
    have nil : contents = [] := List.length_eq_zero_iff.mp (by omega)
    subst nil
    rw [cut_nil]
    simp [Nat.div_eq_of_lt (Nat.sub_lt pos one_pos)]
  | case2 contents nonempty ih =>
    rw [cut_cons pos (by omega), List.length_cons, ih, List.length_drop]
    rcases Nat.le_total contents.length size with short | long
    · have last : contents.length - size + size - 1 = size - 1 := by omega
      have one : contents.length + size - 1 = (contents.length - 1) + size := by omega
      rw [last, one, Nat.add_div_right _ pos, Nat.div_eq_of_lt (by omega),
        Nat.div_eq_of_lt (by omega)]
    · have more : contents.length + size - 1 = (contents.length - size + size - 1) + size := by
        omega
      rw [more, Nat.add_div_right _ pos]

/-- Zero-pad a block to the block size. -/
def padBlock (blockSize : ℕ) (data : Buffer) : Buffer :=
  data ++ List.replicate (blockSize - data.length) 0

@[simp] theorem padBlock_length (blockSize : ℕ) (data : Buffer) (fits : data.length ≤ blockSize) :
    (padBlock blockSize data).length = blockSize := by
  rw [padBlock, List.length_append, List.length_replicate]
  omega

/-- The Cauchy coefficient of an input for an equation. Indices are 64-bit words, and a
zero denominator is replaced by one. -/
def cauchyCoefficient (firstInput firstRecovery equation input : ℕ) : Gf64 :=
  let denom := gf64OfNat (firstInput + input) + gf64OfNat (firstRecovery + equation)
  if denom = 0 then 1 else denom⁻¹

/-- One input file with the fields its packets record. -/
structure SourceFile where
  name : Buffer
  contents : Buffer
  mode : ℕ
  fileId : Buffer

/-- The number of blocks of a file, `Math.ceil(size / blockSize)`. -/
def SourceFile.blockCount (blockSize : ℕ) (file : SourceFile) : ℕ :=
  (file.contents.length + blockSize - 1) / blockSize

/-- The inputs of create, with the restrictions under which it writes an archive. Create asks
for a block size that is a power of two from 1024 on and for a power of two of recovery blocks;
of this only the multiple of eight is used. Name and mode are stored in 16 and 32 bits by
writers that reject larger values, the block and recovery counts are checked or stored in 32
bits, and block size and creator string are limited by what a buffer can hold. -/
structure Archive where
  blockSize : ℕ
  files : List SourceFile
  recoverySlices : ℕ
  creator : Option Buffer
  inputSetId : Buffer
  blockSize_pos : 0 < blockSize
  blockSize_words : 8 ∣ blockSize
  blockSize_small : blockSize ≤ 2 ^ 52
  names_small : ∀ file ∈ files, file.name.length < 2 ^ 16 ∧ file.fileId.length = 16
  files_small : files.length < 2 ^ 32
  creator_small : ∀ text ∈ creator, text.length < 2 ^ 32
  inputSetId_length : inputSetId.length = 8
  totalBlocks_small : (files.map (SourceFile.blockCount blockSize)).sum ≤ 0x7FFFFFFF
  recoverySlices_small : recoverySlices < 2 ^ 32

namespace Archive

variable (archive : Archive)

def totalBlocks : ℕ := (archive.files.map (SourceFile.blockCount archive.blockSize)).sum

/-- The bytes of every block as they stand in the files. -/
def blockData : List Buffer := archive.files.flatMap fun file => cut archive.blockSize file.contents

/-- The block that enters the recovery sums. -/
def inputBlock (index : ℕ) : Buffer :=
  padBlock archive.blockSize (archive.blockData.getD index [])

/-- The recovery block: the sum over all inputs of coefficient times block, word by word. -/
def recoveryBlock (row : ℕ) : Buffer :=
  ofWords (archive.blockSize / 8) fun word =>
    ∑ input ∈ Finset.range archive.totalBlocks,
      cauchyCoefficient 0 archive.totalBlocks row input * wordAt (archive.inputBlock input) word

/-! ## The packets -/

/-- `_createStartPacket`: the block size and its binary logarithm, and constants. -/
def startBody : Buffer :=
  [8] ++ List.replicate 15 0 ++ toLittleEndian 8 archive.blockSize ++
    toLittleEndian 4 archive.blockSize.log2 ++ toLittleEndian 2 8 ++ toLittleEndian 4 0x1D

/-- `_createMatrixPacket`: first and last input, first recovery, recovery count, and the
counts once more as 32-bit numbers. -/
def matrixBody : Buffer :=
  toLittleEndian 8 0 ++
    toLittleEndian 8 (if 0 < archive.totalBlocks then archive.totalBlocks - 1 else 0) ++
    toLittleEndian 8 archive.totalBlocks ++ toLittleEndian 8 archive.recoverySlices ++
    toLittleEndian 4 archive.recoverySlices ++ toLittleEndian 4 archive.totalBlocks

/-- The default file mode stands for a missing one. -/
def fileMode (file : SourceFile) : ℕ := if file.mode = 0 then 0x81A4 else file.mode

/-- One FILE packet of `_createFilePackets`. -/
def fileBody (file : SourceFile) : Buffer :=
  toLittleEndian 2 file.name.length ++ toLittleEndian 2 0 ++ file.name ++ file.fileId ++
    toLittleEndian 8 file.contents.length ++ toLittleEndian 8 0 ++ toLittleEndian 4 (fileMode file)

/-- `_createPermissionsPacket`. -/
def permissionsBody (file : SourceFile) : Buffer :=
  file.fileId ++ toLittleEndian 4 (fileMode file)

/-- `_createDataPacket`: the block index and the bytes of the file, without padding. -/
def dataBody (index : ℕ) (data : Buffer) : Buffer := toLittleEndian 8 index ++ data

/-- `_createRecoveryPackets`: the block index behind all inputs, a count of one, the block. -/
def recoveryBody (row : ℕ) : Buffer :=
  toLittleEndian 8 (archive.totalBlocks + row) ++ toLittleEndian 8 1 ++ archive.recoveryBlock row

variable (blake3 : Hash)

/-- A finished packet of this archive. -/
def packet (type : PacketType) (body : Buffer) : RawPacket :=
  createPacket blake3 type archive.inputSetId body

/-- `_createFilePackets`: each FILE packet, followed by a permissions packet when the mode is
not the default. -/
def filePackets : List RawPacket :=
  archive.files.flatMap fun file =>
    archive.packet blake3 .FILE (fileBody file) ::
      if fileMode file ≠ 0x81A4 then [archive.packet blake3 .UNIX_PERM (permissionsBody file)]
      else []

/-- `_createRootPacket`: the lowest unused block index and the checksums of the FILE packets. -/
def rootBody : Buffer :=
  toLittleEndian 8 archive.totalBlocks ++ [0] ++ toLittleEndian 4 0 ++
    (archive.filePackets blake3).flatMap RawPacket.checksum

/-- What `run` writes before the blocks. -/
def headerPackets : List RawPacket :=
  (archive.creator.toList.map fun text => archive.packet blake3 .CREATOR text) ++
    [archive.packet blake3 .START archive.startBody,
      archive.packet blake3 .CAUCHY archive.matrixBody] ++
    archive.filePackets blake3 ++ [archive.packet blake3 .ROOT (archive.rootBody blake3)]

def dataPacket (index : ℕ) : RawPacket :=
  archive.packet blake3 .DATA (dataBody index (archive.blockData.getD index []))

def recoveryPacket (row : ℕ) : RawPacket :=
  archive.packet blake3 .RECOVERY (archive.recoveryBody row)

/-- An empty input set ends the run before any recovery block is computed. -/
def recoveryPackets : ℕ := if archive.totalBlocks = 0 then 0 else archive.recoverySlices

end Archive

/-! ## Damage -/

/-- What becomes of one packet. -/
inductive Fate where
  | intact
  | lost
  | damaged (replacement : RawPacket)

/-- The packet that is found in the damaged archive, if any. -/
def Fate.apply (packet : RawPacket) : Fate → Option RawPacket
  | intact => some packet
  | lost => none
  | damaged replacement => some replacement

/-- Whether the packet survives. -/
def Fate.survives : Fate → Bool
  | intact => true
  | _ => false

/-- The fates of the DATA and RECOVERY packets. A damaged packet is still framed, keeps its
type and fails its checksum. -/
structure Damage (blake3 : Hash) where
  data : ℕ → Fate
  recovery : ℕ → Fate
  data_fails : ∀ index replacement, data index = .damaged replacement →
    replacement.WellFormed ∧ replacement.type = .DATA ∧ replacement.valid blake3 = false
  recovery_fails : ∀ row replacement, recovery row = .damaged replacement →
    replacement.WellFormed ∧ replacement.type = .RECOVERY ∧ replacement.valid blake3 = false

/-- Recovery packets that are all intact are no damaged ones. -/
theorem intact_recovery_fails (blake3 : Hash) : ∀ (row : ℕ) replacement,
    (fun _ : ℕ => Fate.intact) row = .damaged replacement →
      replacement.WellFormed ∧ replacement.type = .RECOVERY ∧ replacement.valid blake3 = false := by
  intro row replacement fate
  cases fate

namespace Damage

variable {blake3 : Hash} (damage : Damage blake3) (archive : Archive)

/-- The packets of the damaged archive, in file order. -/
def packets : List RawPacket :=
  archive.headerPackets blake3 ++
    (List.range archive.totalBlocks).filterMap (fun index =>
      (damage.data index).apply (archive.dataPacket blake3 index)) ++
    (List.range archive.recoveryPackets).filterMap fun row =>
      (damage.recovery row).apply (archive.recoveryPacket blake3 row)

/-- The file that repair and verify are given. -/
def file : Buffer := (damage.packets archive).flatMap RawPacket.bytes

/-- The input blocks without an intact DATA packet, in order. -/
def lostInputs : List ℕ :=
  (List.range archive.totalBlocks).filter fun index => !(damage.data index).survives

/-- The recovery blocks without an intact RECOVERY packet, in order. -/
def lostRecovery : List ℕ :=
  (List.range archive.recoveryPackets).filter fun row => !(damage.recovery row).survives

end Damage

end Par3
