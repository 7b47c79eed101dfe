import Par3.CreatedPackets
import Par3.Foundations.FallibleLoops
import Par3.RightHandSide

/-!
# RECOVERY packets in two languages

The packets of the recovery blocks are assembled by the native binding, all in one buffer, or one by
one where there is no binding. The native side counts the block indices in 64-bit integers. Without it
an index is a double, and the field is written from two halves that a `BigInt` does not have. The two
write the same bytes as long as every index is a number that a double holds.
-/

namespace Par3

/-! ## Integers of the language -/

/-- A double, or a `BigInt`. -/
inductive JsInteger where
  | number (value : ℕ)
  | bigint (value : ℕ)
deriving DecidableEq, Repr

namespace JsInteger

/-- The sum of doubles is rounded. -/
def plus : JsInteger → ℕ → JsInteger
  | number value, more => number (roundDouble (value + more))
  | bigint value, more => bigint (value + more)

/-- `napi_get_value_int64` stops at the largest value, and `napi_get_value_bigint_int64` keeps the low
bits. -/
def int64 : JsInteger → ℕ
  | number value => min value (2 ^ 63 - 1)
  | bigint value => value % 2 ^ 64

end JsInteger

inductive AssemblyError where
  | typeError (message : String)
  | rangeError (message : String)
deriving DecidableEq, Repr

structure RecoveryEntry where
  blockIndex : JsInteger
  data : Buffer
deriving DecidableEq

/-- A new buffer holds what was in its memory. -/
def allocBuffer (memory : ℕ → UInt8) (length : ℕ) : Buffer := (List.range length).map memory

section Assembly

variable (blake3 : Hash)

/-! ## The native packets -/

/-- One packet, written at its offset in the output. -/
def assemblePacket (inputSetId : Buffer) (pktSize pkt blockIndex : ℕ) (data out : Buffer) : Buffer :=
  let out := copyInto out PAR3_MAGIC pkt
  let out := copyInto out (List.replicate 16 0) (pkt + 8)
  let out := copyInto out (toLittleEndian 8 pktSize) (pkt + 24)
  let out := copyInto out inputSetId (pkt + 32)
  let out := copyInto out PacketType.RECOVERY.code (pkt + 40)
  let out := copyInto out (toLittleEndian 8 blockIndex) (pkt + 48)
  let out := copyInto out (toLittleEndian 8 1) (pkt + 56)
  let out := copyInto out data (pkt + 64)
  let hashed := slice out (pkt + 24) (pkt + 48) ++ slice out (pkt + 48) (pkt + pktSize)
  copyInto out ((blake3 hashed).toList.take 16) (pkt + 8)

def assemble_recovery_packets (memory : ℕ → UInt8) (recoveryBlocks inputSetId : Buffer)
    (firstRecoveryIndex : JsInteger) (numRecovery blockSize : ℕ) : Except AssemblyError Buffer :=
  if inputSetId.length ≠ 8 then
    .error (.typeError "inputSetIdBuf must be a 8-byte Buffer")
  else if numRecovery = 0 then
    .error (.rangeError "numRecovery must be a positive integer")
  else if blockSize = 0 then
    .error (.rangeError "blockSize must be a positive integer")
  else if 2 ^ 40 / blockSize < numRecovery then
    .error (.rangeError "numRecovery * blockSize exceeds 1 TiB cap")
  else if numRecovery * blockSize ≠ recoveryBlocks.length then
    .error (.rangeError "recoveryBlocksBuf length must equal numRecovery * blockSize")
  else
    let pktSize := 64 + blockSize
    .ok ((List.range numRecovery).foldl
      (fun out i => assemblePacket blake3 inputSetId pktSize (i * pktSize)
        ((firstRecoveryIndex.int64 + i) % 2 ^ 64)
        (slice recoveryBlocks (i * blockSize) ((i + 1) * blockSize)) out)
      (allocBuffer memory (numRecovery * pktSize)))

/-- The blocks are copied into one buffer, and the packets out of the returned one. -/
def nativePackets (memory : ℕ → UInt8) (inputSetId : Buffer) (first : RecoveryEntry)
    (recoveryData : List RecoveryEntry) : Except AssemblyError (List Buffer) := do
  let numRecovery := recoveryData.length
  let blockSize := first.data.length
  let packed := (List.range numRecovery).foldl
    (fun packed i => copyInto packed (recoveryData.getD i first).data (i * blockSize))
    (List.replicate (numRecovery * blockSize) 0)
  let combined ← assemble_recovery_packets blake3 memory packed inputSetId first.blockIndex
    numRecovery blockSize
  let pktSize := 64 + blockSize
  return (List.range numRecovery).map fun i => slice combined (i * pktSize) ((i + 1) * pktSize)

/-! ## The packets without the binding -/

def fillPacketHeader (header : Buffer) (type : PacketType) (bodySize : ℕ) (inputSetId : Buffer) :
    Buffer :=
  let header := copyInto header PAR3_MAGIC 0
  let header := copyInto header (List.replicate 16 0) 8
  let header := copyInto header (writeUInt64LE (PAR3_PKT_HDR_SIZE + bodySize)) 24
  let header := copyInto header inputSetId 32
  copyInto header type.code 40

def createPacketHeader (memory : ℕ → UInt8) (type : PacketType) (bodySize : ℕ)
    (inputSetId : Buffer) : Buffer :=
  fillPacketHeader (allocBuffer memory (PAR3_PKT_HDR_SIZE + bodySize)) type bodySize inputSetId

def finalizePacketHeader (header body : Buffer) : Buffer :=
  copyInto header ((blake3 (slice header 24 48 ++ body)).toList.take 16) 8

/-- `writeUInt64LE(buf, val, offset)`. The shift of its first line is not for `BigInt`. -/
def writeInteger (buf : Buffer) (val : JsInteger) (offset : ℕ) : Except AssemblyError Buffer :=
  match val with
  | .number value => .ok (copyInto buf (writeUInt64LE value) offset)
  | .bigint _ => .error (.typeError "Cannot mix BigInt and other types, use explicit conversions")

def createRecoveryPacket (memory : ℕ → UInt8) (inputSetId : Buffer) (rec : RecoveryEntry) :
    Except AssemblyError Buffer := do
  let bodySize := 16 + rec.data.length
  let header := createPacketHeader memory .RECOVERY bodySize inputSetId
  let header ← writeInteger header rec.blockIndex 48
  let header := copyInto header (writeUInt64LE 1) 56
  let fullPacket := copyInto header rec.data (PAR3_PKT_HDR_SIZE + 16)
  return finalizePacketHeader blake3 fullPacket (fullPacket.drop 48)

/-- `async.eachSeries`. Every packet has a buffer of its own. -/
def eachPacket (memory : ℕ → ℕ → UInt8) (inputSetId : Buffer) :
    ℕ → List RecoveryEntry → Except AssemblyError (List Buffer)
  | _, [] => .ok []
  | turn, rec :: rest => do
    let packet ← createRecoveryPacket blake3 (memory turn) inputSetId rec
    let packets ← eachPacket memory inputSetId (turn + 1) rest
    return packet :: packets

/-- `_createRecoveryPackets`, with the binding or without it. -/
def createRecoveryPackets (binding : Bool) (memory : ℕ → ℕ → UInt8) (inputSetId : Buffer)
    (recoveryData : List RecoveryEntry) : Except AssemblyError (List Buffer) :=
  match binding, recoveryData with
  | true, first :: rest => nativePackets blake3 (memory 0) inputSetId first (first :: rest)
  | _, recoveryData => eachPacket blake3 memory inputSetId 0 recoveryData

/-- The entries of the finished recovery blocks, `{ blockIndex: first + r, data }`. -/
def recoveryEntries (firstRecoveryIndex : JsInteger) (numRecovery : ℕ) (blocks : ℕ → Buffer) :
    List RecoveryEntry :=
  (List.range numRecovery).map fun r => ⟨firstRecoveryIndex.plus r, blocks r⟩

/-! ## One packet -/

/-- What is written behind the bytes that are there already. -/
theorem copyInto_next (written rest new : Buffer) (fits : new.length ≤ rest.length) :
    copyInto (written ++ rest) new written.length = (written ++ new) ++ rest.drop new.length := by
  have room : (written ++ rest).length - written.length = rest.length := by
    rw [List.length_append, Nat.add_sub_cancel_left]
  rw [copyInto, List.take_left, room, List.take_of_length_le fits, List.drop_append,
    List.drop_eq_nil_of_le (Nat.le_add_right _ _), List.nil_append, Nat.add_sub_cancel_left]

/-- Fields that are written one behind the other. -/
def copyFields : List Buffer → ℕ → Buffer → Buffer
  | [], _, out => out
  | field :: more, offset, out => copyFields more (offset + field.length) (copyInto out field offset)

theorem copyFields_eq (fields : List Buffer) (written rest : Buffer)
    (fits : fields.flatten.length ≤ rest.length) :
    copyFields fields written.length (written ++ rest) =
      (written ++ fields.flatten) ++ rest.drop fields.flatten.length := by
  induction fields generalizing written rest with
  | nil => simp [copyFields]
  | cons field more ih =>
    rw [List.flatten_cons, List.length_append] at fits
    have behind : more.flatten.length ≤ (rest.drop field.length).length := by
      rw [List.length_drop]
      omega
    rw [copyFields, copyInto_next _ _ _ (by omega), ← List.length_append, ih _ _ behind,
      List.drop_drop, List.flatten_cons, List.append_assoc written field, List.length_append]

/-- What replaces bytes of the same length. -/
theorem copyInto_replace (before old after new : Buffer) {offset : ℕ}
    (reached : before.length = offset) (same : new.length = old.length) :
    copyInto (before ++ (old ++ after)) new offset = before ++ (new ++ after) := by
  subst reached
  rw [copyInto_next _ _ _ (by rw [List.length_append]; omega), same, List.drop_left, List.append_assoc]

theorem slice_middle (before middle after : Buffer) {start stop : ℕ} (reached : before.length = start)
    (width : start + middle.length = stop) :
    slice (before ++ (middle ++ after)) start stop = middle := by
  subst reached width
  rw [slice, List.drop_left, Nat.add_sub_cancel_left, List.take_left]

theorem slice_end (buf : Buffer) (start : ℕ) {stop : ℕ} (reached : stop = buf.length) :
    slice buf start stop = buf.drop start := by
  rw [slice, List.take_of_length_le (by rw [List.length_drop, reached])]

/-- The packet that the parsers read. -/
def recoveryPacket (inputSetId : Buffer) (blockIndex : ℕ) (data : Buffer) : Buffer :=
  ((CreatedPacket.recovery blockIndex data).packet blake3 (fun _ => 0) inputSetId).bytes

/-- The header bytes that the checksum covers. -/
def coveredHeader (inputSetId : Buffer) (pktSize : ℕ) : Buffer :=
  toLittleEndian 8 pktSize ++ (inputSetId ++ PacketType.RECOVERY.code)

def recoveryBody (blockIndex : ℕ) (data : Buffer) : Buffer :=
  toLittleEndian 8 blockIndex ++ (toLittleEndian 8 1 ++ data)

theorem recoveryBody_length (blockIndex : ℕ) (data : Buffer) :
    (recoveryBody blockIndex data).length = 16 + data.length := by
  simp only [recoveryBody, List.length_append, toLittleEndian_length]
  omega

variable {blake3} {inputSetId : Buffer}

theorem coveredHeader_length (setId : inputSetId.length = 8) (pktSize : ℕ) :
    (coveredHeader inputSetId pktSize).length = 24 := by
  simp [coveredHeader, setId, (PacketType.ofHeader_code .RECOVERY).1]

theorem recoveryPacket_eq (blockIndex : ℕ) (data : Buffer) :
    recoveryPacket blake3 inputSetId blockIndex data =
      PAR3_MAGIC ++ ((blake3 (coveredHeader inputSetId (64 + data.length) ++
        recoveryBody blockIndex data)).toList.take 16 ++
          (coveredHeader inputSetId (64 + data.length) ++ recoveryBody blockIndex data)) := by
  have size : PAR3_PKT_HDR_SIZE + (8 + (8 + data.length)) = 64 + data.length := by
    rw [PAR3_PKT_HDR_SIZE]
    omega
  simp [recoveryPacket, CreatedPacket.packet, CreatedPacket.body, CreatedPacket.type, createPacket,
    RawPacket.bytes, RawPacket.header, RawPacket.afterChecksum, coveredHeader, recoveryBody,
    writeUInt64LE_eq, size]

theorem recoveryPacket_length (setId : inputSetId.length = 8) (blockIndex : ℕ) (data : Buffer) :
    (recoveryPacket blake3 inputSetId blockIndex data).length = 64 + data.length := by
  simp only [recoveryPacket_eq, List.length_append, PAR3_MAGIC_length, coveredHeader_length setId,
    recoveryBody_length, List.length_take, Vector.length_toList]
  omega

/-- The fields of a packet before it has its checksum. -/
theorem fields_copied (setId : inputSetId.length = 8) (blockIndex : ℕ)
    (data before region after : Buffer) (width : region.length = 64 + data.length) :
    copyFields [PAR3_MAGIC, List.replicate 16 0, toLittleEndian 8 (64 + data.length), inputSetId,
        PacketType.RECOVERY.code, toLittleEndian 8 blockIndex, toLittleEndian 8 1, data]
        before.length (before ++ (region ++ after)) =
      before ++ PAR3_MAGIC ++ (List.replicate 16 0 ++
        (coveredHeader inputSetId (64 + data.length) ++ (recoveryBody blockIndex data ++ after))) := by
  have flat : [PAR3_MAGIC, List.replicate 16 0, toLittleEndian 8 (64 + data.length), inputSetId,
      PacketType.RECOVERY.code, toLittleEndian 8 blockIndex, toLittleEndian 8 1, data].flatten =
      PAR3_MAGIC ++ (List.replicate 16 0 ++
        (coveredHeader inputSetId (64 + data.length) ++ recoveryBody blockIndex data)) := by
    simp [coveredHeader, recoveryBody]
  have length : (PAR3_MAGIC ++ (List.replicate 16 0 ++
      (coveredHeader inputSetId (64 + data.length) ++ recoveryBody blockIndex data))).length =
      region.length := by
    simp only [List.length_append, List.length_replicate, PAR3_MAGIC_length,
      coveredHeader_length setId, recoveryBody_length, width]
    omega
  rw [copyFields_eq _ _ _ (by rw [flat, length, List.length_append]; omega), flat, length,
    List.drop_left]
  simp only [List.append_assoc]

/-- The bytes before the packet and behind it stay, and those of the packet are overwritten, whatever
they were. -/
theorem assemblePacket_region (setId : inputSetId.length = 8) (blockIndex : ℕ)
    (data before region after : Buffer) (width : region.length = 64 + data.length) :
    assemblePacket blake3 inputSetId (64 + data.length) before.length blockIndex data
        (before ++ (region ++ after)) =
      before ++ (recoveryPacket blake3 inputSetId blockIndex data ++ after) := by
  have copied := fields_copied setId blockIndex data before region after width
  simp only [copyFields, PAR3_MAGIC_length, List.length_replicate, toLittleEndian_length, setId,
    (PacketType.ofHeader_code .RECOVERY).1, Nat.add_assoc, Nat.reduceAdd] at copied
  have start : (before ++ PAR3_MAGIC).length = before.length + 8 := by
    rw [List.length_append, PAR3_MAGIC_length]
  have checksum : (before ++ PAR3_MAGIC ++ List.replicate 16 0).length = before.length + 24 := by
    rw [List.length_append, start, List.length_replicate]
  have header : (before ++ PAR3_MAGIC ++ List.replicate 16 0 ++
      coveredHeader inputSetId (64 + data.length)).length = before.length + 48 := by
    rw [List.length_append, checksum, coveredHeader_length setId]
  -- The hash reads the fields back out of the buffer.
  have hashedHeader := slice_middle (before ++ PAR3_MAGIC ++ List.replicate 16 0) _
    (recoveryBody blockIndex data ++ after) checksum
    (rfl : before.length + 24 + (coveredHeader inputSetId (64 + data.length)).length = _)
  have hashedBody := slice_middle _ _ after header
    (rfl : before.length + 48 + (recoveryBody blockIndex data).length = _)
  rw [coveredHeader_length setId] at hashedHeader
  rw [recoveryBody_length, Nat.add_assoc, ← Nat.add_assoc 48] at hashedBody
  simp only [assemblePacket]
  rw [copied, copyInto_replace _ _ _ _ start (by simp), recoveryPacket_eq]
  simp only [List.append_assoc] at hashedHeader hashedBody ⊢
  rw [hashedHeader, hashedBody]

/-- A packet is written over the bytes at its offset. -/
theorem assemblePacket_eq (setId : inputSetId.length = 8) (pkt blockIndex : ℕ) (data out : Buffer)
    (fits : pkt + (64 + data.length) ≤ out.length) :
    assemblePacket blake3 inputSetId (64 + data.length) pkt blockIndex data out =
      copyInto out (recoveryPacket blake3 inputSetId blockIndex data) pkt := by
  have before : (out.take pkt).length = pkt := by
    rw [List.length_take]
    omega
  have width : ((out.drop pkt).take (64 + data.length)).length = 64 + data.length := by
    rw [List.length_take, List.length_drop]
    omega
  have cut : out = out.take pkt ++ ((out.drop pkt).take (64 + data.length) ++
      (out.drop pkt).drop (64 + data.length)) := by
    rw [List.take_append_drop, List.take_append_drop]
  have written := @assemblePacket_region blake3 _ setId blockIndex data (out.take pkt) _
    ((out.drop pkt).drop (64 + data.length)) width
  rw [← cut, before] at written
  have replaced := copyInto_replace _ _ ((out.drop pkt).drop (64 + data.length))
    (recoveryPacket blake3 inputSetId blockIndex data) before
    ((recoveryPacket_length setId blockIndex data).trans width.symm)
  rw [← cut] at replaced
  exact written.trans replaced.symm

/-! ## All packets -/

section Blocks

variable {blocks : ℕ → Buffer} {count blockSize : ℕ} (lengths : ∀ row, (blocks row).length = blockSize)

include lengths

/-- Every packet of the loop is a copy to its offset. -/
theorem assemble_copies (setId : inputSetId.length = 8) (blockIndex : ℕ → ℕ) (data : ℕ → Buffer)
    (same : ∀ i < count, data i = blocks i) (out : Buffer)
    (room : count * (64 + blockSize) ≤ out.length) :
    (List.range count).foldl (fun out i => assemblePacket blake3 inputSetId (64 + blockSize)
        (i * (64 + blockSize)) (blockIndex i) (data i) out) out =
      (List.range count).foldl (fun out i => copyInto out
        (recoveryPacket blake3 inputSetId (blockIndex i) (blocks i)) (i * (64 + blockSize))) out := by
  have pieces (row : ℕ) : (recoveryPacket blake3 inputSetId (blockIndex row) (blocks row)).length =
      64 + blockSize := by
    rw [recoveryPacket_length setId, lengths]
  induction count with
  | zero => rw [List.range_zero, List.foldl_nil, List.foldl_nil]
  | succ count ih =>
    have next : (count + 1) * (64 + blockSize) = count * (64 + blockSize) + (64 + blockSize) :=
      Nat.succ_mul count _
    have earlier := ih (fun i inside => same i (Nat.lt_succ_of_lt inside)) (by omega)
    have copied := (slice_copies _ _ pieces out count (by omega)).1
    rw [List.range_succ, List.foldl_append, List.foldl_append, earlier, List.foldl_cons,
      List.foldl_nil, List.foldl_cons, List.foldl_nil, same count (Nat.lt_succ_self count),
      ← lengths count]
    refine assemblePacket_eq setId _ _ _ _ ?_
    rw [lengths, copied]
    omega

variable (countPositive : 0 < count) (sizePositive : 0 < blockSize)
  (cap : count * blockSize ≤ 2 ^ 40) (setId : inputSetId.length = 8)

include countPositive sizePositive cap setId

theorem assemble_recovery_packets_eq (memory : ℕ → UInt8) (recoveryBlocks : Buffer)
    (firstRecoveryIndex : JsInteger) (packed : recoveryBlocks.length = count * blockSize)
    (held : ∀ i < count, slice recoveryBlocks (i * blockSize) ((i + 1) * blockSize) = blocks i) :
    assemble_recovery_packets blake3 memory recoveryBlocks inputSetId firstRecoveryIndex count
        blockSize =
      .ok ((List.range count).foldl (fun out i => copyInto out
        (recoveryPacket blake3 inputSetId ((firstRecoveryIndex.int64 + i) % 2 ^ 64) (blocks i))
        (i * (64 + blockSize))) (allocBuffer memory (count * (64 + blockSize)))) := by
  have within : ¬ 2 ^ 40 / blockSize < count := by
    rw [not_lt, Nat.le_div_iff_mul_le sizePositive]
    exact cap
  have room : count * (64 + blockSize) ≤ (allocBuffer memory (count * (64 + blockSize))).length := by
    simp [allocBuffer]
  rw [assemble_recovery_packets, if_neg (not_not.mpr setId), if_neg countPositive.ne',
    if_neg sizePositive.ne', if_neg within, if_neg (not_not.mpr packed.symm)]
  exact congrArg Except.ok (assemble_copies lengths setId _ _ held _ room)

/-- The native packets, whatever was in the memory of the output. -/
theorem nativePackets_eq (memory : ℕ → UInt8) (firstRecoveryIndex : JsInteger) (first : RecoveryEntry)
    (head : first = ⟨firstRecoveryIndex.plus 0, blocks 0⟩) :
    nativePackets blake3 memory inputSetId first (recoveryEntries firstRecoveryIndex count blocks) =
      .ok ((List.range count).map fun i =>
        recoveryPacket blake3 inputSetId (((firstRecoveryIndex.plus 0).int64 + i) % 2 ^ 64)
          (blocks i)) := by
  have width : first.data.length = blockSize := by rw [head, lengths]
  have entries : (recoveryEntries firstRecoveryIndex count blocks).length = count := by
    simp [recoveryEntries]
  have entry (i : ℕ) (inside : i < count) :
      ((recoveryEntries firstRecoveryIndex count blocks).getD i first).data = blocks i := by
    simp [recoveryEntries, List.getD_eq_getElem?_getD, inside]
  have index : first.blockIndex = firstRecoveryIndex.plus 0 := by rw [head]
  -- The blocks are packed one behind the other.
  have pack : (List.range count).foldl (fun packed i => copyInto packed
      ((recoveryEntries firstRecoveryIndex count blocks).getD i first).data (i * blockSize))
      (List.replicate (count * blockSize) 0) =
      (List.range count).foldl (fun packed i => copyInto packed (blocks i) (i * blockSize))
        (List.replicate (count * blockSize) 0) :=
    List.foldl_ext _ _ _ fun packed i member => by rw [entry i (List.mem_range.mp member)]
  have packed := slice_copies blocks blockSize lengths (List.replicate (count * blockSize) 0) count
    (by rw [List.length_replicate])
  have pieces (row : ℕ) : (recoveryPacket blake3 inputSetId
      (((firstRecoveryIndex.plus 0).int64 + row) % 2 ^ 64) (blocks row)).length = 64 + blockSize := by
    rw [recoveryPacket_length setId, lengths]
  have written := (slice_copies _ _ pieces (allocBuffer memory (count * (64 + blockSize))) count
    (by simp [allocBuffer])).2
  have assembled := @assemble_recovery_packets_eq blake3 inputSetId blocks count blockSize lengths
    countPositive sizePositive cap setId memory _ (firstRecoveryIndex.plus 0)
    (packed.1.trans (List.length_replicate ..)) packed.2
  simp only [nativePackets, entries, width, index]
  rw [pack, assembled]
  exact congrArg Except.ok (List.map_congr_left fun i member => written i (List.mem_range.mp member))

omit lengths countPositive sizePositive cap in
/-- Without the binding, one packet after the other. -/
theorem createRecoveryPacket_eq (memory : ℕ → UInt8) (value : ℕ) (data : Buffer) :
    createRecoveryPacket blake3 memory inputSetId ⟨.number value, data⟩ =
      .ok (recoveryPacket blake3 inputSetId value data) := by
  have size : PAR3_PKT_HDR_SIZE + (16 + data.length) = 64 + data.length := by
    rw [PAR3_PKT_HDR_SIZE]
    omega
  have offset : PAR3_PKT_HDR_SIZE + 16 = 64 := rfl
  have room : (allocBuffer memory (64 + data.length)).length = 64 + data.length := by
    simp [allocBuffer]
  have whole : 64 + data.length = (PAR3_MAGIC ++ (List.replicate 16 0 ++
      (coveredHeader inputSetId (64 + data.length) ++ recoveryBody value data))).length := by
    simp only [List.length_append, List.length_replicate, PAR3_MAGIC_length,
      coveredHeader_length setId, recoveryBody_length]
    omega
  have assembled := @assemblePacket_eq blake3 inputSetId setId 0 value data
    (allocBuffer memory (64 + data.length)) (by omega)
  have replaced := copyInto_replace [] _ [] (recoveryPacket blake3 inputSetId value data) List.length_nil
    ((recoveryPacket_length setId value data).trans room.symm)
  simp only [List.nil_append, List.append_nil] at replaced
  rw [replaced] at assembled
  have copied := fields_copied setId value data [] (allocBuffer memory (64 + data.length)) [] room
  simp only [copyFields, PAR3_MAGIC_length, List.length_replicate, toLittleEndian_length, setId,
    (PacketType.ofHeader_code .RECOVERY).1, List.length_nil, List.nil_append, List.append_nil,
    Nat.reduceAdd] at copied
  rw [← assembled]
  simp only [assemblePacket, createRecoveryPacket, createPacketHeader, fillPacketHeader,
    finalizePacketHeader, writeInteger, writeUInt64LE_eq, size, offset, Nat.zero_add]
  rw [FallibleLoops.ok_bind, copied, slice_end _ _ whole]
  rfl

omit lengths countPositive sizePositive cap in
theorem eachPacket_eq (memory : ℕ → ℕ → UInt8) (turn : ℕ) (rows : List ℕ) (index : ℕ → ℕ) :
    eachPacket blake3 memory inputSetId turn (rows.map fun r => ⟨.number (index r), blocks r⟩) =
      .ok (rows.map fun r => recoveryPacket blake3 inputSetId (index r) (blocks r)) := by
  induction rows generalizing turn with
  | nil => rfl
  | cons row rest ih =>
    rw [List.map_cons, List.map_cons, eachPacket, createRecoveryPacket_eq setId, FallibleLoops.ok_bind,
      ih, FallibleLoops.ok_bind]
    rfl

/-- With the binding. -/
theorem createRecoveryPackets_native (memory : ℕ → ℕ → UInt8) (firstRecoveryIndex : JsInteger) :
    createRecoveryPackets blake3 true memory inputSetId
        (recoveryEntries firstRecoveryIndex count blocks) =
      .ok ((List.range count).map fun i =>
        recoveryPacket blake3 inputSetId (((firstRecoveryIndex.plus 0).int64 + i) % 2 ^ 64)
          (blocks i)) := by
  obtain ⟨more, rfl⟩ := Nat.exists_eq_succ_of_ne_zero countPositive.ne'
  have split : recoveryEntries firstRecoveryIndex (more + 1) blocks =
      ⟨firstRecoveryIndex.plus 0, blocks 0⟩ ::
        (List.range more).map fun r => ⟨firstRecoveryIndex.plus (r + 1), blocks (r + 1)⟩ := by
    rw [recoveryEntries, List.range_succ_eq_map, List.map_cons, List.map_map]
    rfl
  rw [split, createRecoveryPackets, ← split]
  exact nativePackets_eq lengths countPositive sizePositive cap setId (memory 0) firstRecoveryIndex _ rfl

omit lengths countPositive sizePositive cap in
/-- Without the binding. -/
theorem createRecoveryPackets_each (memory : ℕ → ℕ → UInt8) (first : ℕ) :
    createRecoveryPackets blake3 false memory inputSetId
        (recoveryEntries (.number first) count blocks) =
      .ok ((List.range count).map fun i =>
        recoveryPacket blake3 inputSetId (roundDouble (first + i)) (blocks i)) := by
  simp only [createRecoveryPackets]
  exact eachPacket_eq setId memory 0 _ _

end Blocks

/-! ## The indices -/

theorem toLittleEndian_mod (count value : ℕ) :
    toLittleEndian count (value % 256 ^ count) = toLittleEndian count value := by
  induction count generalizing value with
  | zero => rfl
  | succ count ih =>
    rw [toLittleEndian, toLittleEndian, Nat.pow_succ', Nat.mod_mod_of_dvd _ (Nat.dvd_mul_right _ _),
      Nat.mod_mul_right_div_self, ih]

theorem toLittleEndian_eq_iff (count first second : ℕ) :
    toLittleEndian count first = toLittleEndian count second ↔
      first % 256 ^ count = second % 256 ^ count := by
  have pos : 0 < 256 ^ count := Nat.pow_pos (by decide)
  constructor
  · intro same
    rw [← toLittleEndian_mod, ← toLittleEndian_mod count second] at same
    have values := congrArg littleEndian same
    rwa [littleEndian_toLittleEndian _ _ (Nat.mod_lt _ pos),
      littleEndian_toLittleEndian _ _ (Nat.mod_lt _ pos)] at values
  · intro same
    rw [← toLittleEndian_mod, same, toLittleEndian_mod]

/-- Packets of one block are the same if their index fields are. -/
theorem recoveryPacket_eq_iff (first second : ℕ) (data : Buffer) :
    recoveryPacket blake3 inputSetId first data = recoveryPacket blake3 inputSetId second data ↔
      first % 2 ^ 64 = second % 2 ^ 64 := by
  have fields := toLittleEndian_eq_iff 8 first second
  norm_num only at fields ⊢
  rw [← fields, recoveryPacket_eq, recoveryPacket_eq]
  constructor
  · intro same
    have behind := (List.append_inj (List.append_cancel_left same) (by simp)).2
    exact (List.append_inj (List.append_cancel_left behind) (by simp)).1
  · intro same
    rw [recoveryBody, same, ← recoveryBody]

/-- An index is written by both sides if it is a double. -/
theorem rounded_index_iff (index : ℕ) (small : index < 2 ^ 64) :
    index % 2 ^ 64 % 2 ^ 64 = roundDouble index % 2 ^ 64 ↔ Field64 index := by
  rw [Nat.mod_mod, Nat.mod_eq_of_lt small]
  constructor
  · intro same
    have near := roundDouble_near index small
    exact ⟨small, by omega⟩
  · intro field
    rw [field.double, Nat.mod_eq_of_lt small]

end Assembly

end Par3
