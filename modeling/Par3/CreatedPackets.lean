import Par3.ParseBuffer

/-!
# Packets that create writes

Each kind of packet has a function that lays out its body and finishes its header. The
fields are numbers of at most 64 bits that a double can hold, written in two halves. Packets
written back to back are parsed as the sequence they are, whatever bytes their bodies hold:
the length field carries the scan over a body, so magic bytes inside it are never looked at.
-/

namespace Par3

/-! ## Numbers -/

/-- The two halves of a number, byte by byte. The operators of the source reduce each half to
32 bits. -/
def writeUInt64LE (val : ℕ) : Buffer :=
  let lo := val % 0x100000000
  let hi := val / 0x100000000
  [lo, lo >>> 8, lo >>> 16, lo >>> 24, hi, hi >>> 8, hi >>> 16, hi >>> 24].map UInt8.ofNat

theorem UInt8_ofNat_congr {first second : ℕ} (same : first % 256 = second % 256) :
    UInt8.ofNat first = UInt8.ofNat second := by
  apply UInt8.toNat_inj.mp
  simpa using same

theorem writeUInt64LE_eq (val : ℕ) : writeUInt64LE val = toLittleEndian 8 val := by
  simp only [writeUInt64LE, toLittleEndian, List.map_cons, List.map_nil, List.cons.injEq, and_true,
    Nat.shiftRight_eq_div_pow]
  refine ⟨?_, ?_, ?_, ?_, ?_, ?_, ?_, ?_⟩ <;>
  · apply UInt8_ofNat_congr
    omega

/-- The integers that a 64-bit field can hold and a double can, too. -/
structure Field64 (val : ℕ) : Prop where
  fits : val < 2 ^ 64
  double : roundDouble val = val

/-- A field is read back where it was written. -/
theorem readUInt64LE_written (before after : Buffer) {val : ℕ} (field : Field64 val) :
    readUInt64LE (before ++ writeUInt64LE val ++ after) before.length = some val := by
  have width : (writeUInt64LE val).length = 8 := rfl
  have bytes : slice (before ++ writeUInt64LE val ++ after) before.length (before.length + 8) =
      writeUInt64LE val := by
    rw [slice, List.append_assoc, List.drop_left, Nat.add_sub_cancel_left, ← width, List.take_left]
  have inside : before.length + 8 ≤ (before ++ writeUInt64LE val ++ after).length := by
    simp only [List.length_append, width]
    omega
  rw [readUInt64LE, if_pos inside, uint64At_eq _ _ inside, bytes, writeUInt64LE_eq,
    littleEndian_toLittleEndian 8 val (lt_of_lt_of_eq field.fits (by norm_num)), field.double]

/-! ## The bodies -/

/-- What the `_create*Packet` functions are given. -/
inductive CreatedPacket where
  | start (blockSize : ℕ)
  | matrix (totalBlocks recoverySlices : ℕ)
  | creator (creatorStr : Buffer)
  | root (totalBlocks : ℕ) (checksums : List Buffer)
  | file (name fileId : Buffer) (size mode : ℕ)
  | permissions (fileId : Buffer) (mode : ℕ)
  | data (blockIndex : ℕ) (block : Buffer)
  | recovery (blockIndex : ℕ) (block : Buffer)

namespace CreatedPacket

def type : CreatedPacket → PacketType
  | start .. => .START
  | matrix .. => .CAUCHY
  | creator .. => .CREATOR
  | root .. => .ROOT
  | file .. => .FILE
  | permissions .. => .UNIX_PERM
  | data .. => .DATA
  | recovery .. => .RECOVERY

/-- `file.mode || 0x81A4`. -/
def modeOrDefault (mode : ℕ) : ℕ := if mode = 0 then 0x81A4 else mode

/-- The body that each function writes. The binary logarithm of the block size, which the
language only approximates, is a parameter. -/
def body (log2 : ℕ → UInt32) : CreatedPacket → Buffer
  | start blockSize =>
    [8] ++ List.replicate 15 0 ++ writeUInt64LE blockSize ++
      toLittleEndian 4 (log2 blockSize).toNat ++ toLittleEndian 2 8 ++ toLittleEndian 4 0x1D
  | matrix totalBlocks recoverySlices =>
    writeUInt64LE 0 ++ writeUInt64LE (if 0 < totalBlocks then totalBlocks - 1 else 0) ++
      writeUInt64LE totalBlocks ++ writeUInt64LE recoverySlices ++
      toLittleEndian 4 recoverySlices ++ toLittleEndian 4 totalBlocks
  | creator creatorStr => creatorStr
  | root totalBlocks checksums =>
    writeUInt64LE totalBlocks ++ [0] ++ toLittleEndian 4 0 ++ checksums.flatten
  | file name fileId size mode =>
    toLittleEndian 2 name.length ++ toLittleEndian 2 0 ++ name ++ fileId ++ writeUInt64LE size ++
      writeUInt64LE 0 ++ toLittleEndian 4 (modeOrDefault mode)
  | permissions fileId mode => fileId ++ toLittleEndian 4 (modeOrDefault mode)
  | data blockIndex block => writeUInt64LE blockIndex ++ block
  | recovery blockIndex block => writeUInt64LE blockIndex ++ writeUInt64LE 1 ++ block

/-- The 64-bit fields and where they stand in the body. -/
def fields : CreatedPacket → List (ℕ × ℕ)
  | start blockSize => [(16, blockSize)]
  | matrix totalBlocks recoverySlices =>
    [(0, 0), (8, totalBlocks - 1), (16, totalBlocks), (24, recoverySlices)]
  | creator _ => []
  | root totalBlocks _ => [(0, totalBlocks)]
  | file name fileId size _ =>
    [(4 + name.length + fileId.length, size), (4 + name.length + fileId.length + 8, 0)]
  | permissions .. => []
  | data blockIndex _ => [(0, blockIndex)]
  | recovery blockIndex _ => [(0, blockIndex), (8, 1)]

/-- The range of the fields: numbers that their writers accept, and a body that a buffer can
hold. Shorter fields are written by functions that reject what does not fit. -/
def InRange (log2 : ℕ → UInt32) (packet : CreatedPacket) : Prop :=
  PAR3_PKT_HDR_SIZE + (packet.body log2).length < 2 ^ 53 ∧
    match packet with
    | start blockSize => Field64 blockSize
    | matrix totalBlocks recoverySlices => totalBlocks < 2 ^ 32 ∧ recoverySlices < 2 ^ 32
    | creator _ => True
    | root totalBlocks checksums => Field64 totalBlocks ∧ ∀ checksum ∈ checksums, checksum.length = 16
    | file name fileId size mode =>
      name.length < 2 ^ 16 ∧ fileId.length = 16 ∧ Field64 size ∧ mode < 2 ^ 32
    | permissions fileId mode => fileId.length = 16 ∧ mode < 2 ^ 32
    | data blockIndex _ => Field64 blockIndex
    | recovery blockIndex _ => Field64 blockIndex

/-- The finished packet. -/
def packet (blake3 : Hash) (log2 : ℕ → UInt32) (inputSetId : Buffer) (created : CreatedPacket) :
    RawPacket :=
  createPacket blake3 created.type inputSetId (created.body log2)

/-- Every 64-bit field is read back with its value. -/
theorem readUInt64LE_body (log2 : ℕ → UInt32) (packet : CreatedPacket) (inRange : packet.InRange log2)
    (field : ℕ × ℕ) (member : field ∈ packet.fields) :
    readUInt64LE (packet.body log2) field.1 = some field.2 := by
  have small (val : ℕ) (less : val < 2 ^ 53) : Field64 val :=
    ⟨by omega, roundDouble_of_lt val less⟩
  obtain ⟨_, ranges⟩ := inRange
  -- The body is cut at the field; what stands before it has the length of the offset.
  have cutAt (before after : Buffer) (val : ℕ) (written : Field64 val)
      (whole : packet.body log2 = before ++ writeUInt64LE val ++ after)
      (offset : before.length = field.1) (value : field.2 = val) :
      readUInt64LE (packet.body log2) field.1 = some field.2 := by
    rw [whole, ← offset, value]
    exact readUInt64LE_written before after written
  cases packet with
  | start blockSize =>
    obtain rfl := List.mem_singleton.mp member
    exact cutAt ([8] ++ List.replicate 15 0)
      (toLittleEndian 4 (log2 blockSize).toNat ++ toLittleEndian 2 8 ++ toLittleEndian 4 0x1D)
      blockSize ranges (by simp [body]) rfl rfl
  | matrix totalBlocks recoverySlices =>
    obtain ⟨inputs, rows⟩ := ranges
    have last : (if 0 < totalBlocks then totalBlocks - 1 else 0) = totalBlocks - 1 := by
      split <;> omega
    simp only [body, last] at cutAt ⊢
    simp only [fields, List.mem_cons, List.not_mem_nil, or_false] at member
    rcases member with rfl | rfl | rfl | rfl
    · exact cutAt [] _ 0 (small 0 (by omega)) (by simp only [List.nil_append, List.append_assoc]; rfl)
        rfl rfl
    · exact cutAt (writeUInt64LE 0) _ _ (small _ (by omega)) (by simp only [List.append_assoc]; rfl)
        rfl rfl
    · exact cutAt (writeUInt64LE 0 ++ writeUInt64LE (totalBlocks - 1)) _ _ (small _ (by omega))
        (by simp only [List.append_assoc]; rfl) rfl rfl
    · exact cutAt (writeUInt64LE 0 ++ writeUInt64LE (totalBlocks - 1) ++ writeUInt64LE totalBlocks) _
        _ (small _ (by omega)) (by simp only [List.append_assoc]; rfl) rfl rfl
  | creator => cases member
  | root totalBlocks checksums =>
    obtain rfl := List.mem_singleton.mp member
    exact cutAt [] ([0] ++ toLittleEndian 4 0 ++ checksums.flatten) totalBlocks ranges.1
      (by simp [body]) rfl rfl
  | file name fileId size mode =>
    obtain ⟨_, _, sizes, _⟩ := ranges
    simp only [fields, List.mem_cons, List.not_mem_nil, or_false] at member
    rcases member with rfl | rfl
    · refine cutAt (toLittleEndian 2 name.length ++ toLittleEndian 2 0 ++ name ++ fileId) _ size
        sizes (by simp only [body, List.append_assoc]; rfl) ?_ rfl
      simp only [List.length_append, toLittleEndian_length]
    · refine cutAt (toLittleEndian 2 name.length ++ toLittleEndian 2 0 ++ name ++ fileId ++
        writeUInt64LE size) _ 0 (small 0 (by omega)) (by simp only [body, List.append_assoc]; rfl) ?_
        rfl
      simp only [List.length_append, toLittleEndian_length, writeUInt64LE_eq]
  | permissions => cases member
  | data blockIndex block =>
    obtain rfl := List.mem_singleton.mp member
    exact cutAt [] block blockIndex ranges (by simp [body]) rfl rfl
  | recovery blockIndex block =>
    simp only [fields, List.mem_cons, List.not_mem_nil, or_false] at member
    rcases member with rfl | rfl
    · exact cutAt [] (writeUInt64LE 1 ++ block) blockIndex ranges (by simp [body]) rfl rfl
    · exact cutAt (writeUInt64LE blockIndex) block 1 (small 1 (by omega)) (by simp [body]) rfl rfl

end CreatedPacket

/-! ## Parsing them again -/

/-- A callback that collects what the buffer parser hands over. -/
def collectBodies (seen : List (PacketType × Buffer × ℕ)) (type : PacketType) (body : Buffer)
    (bodyLen : ℕ) : Except Empty (List (PacketType × Buffer × ℕ)) :=
  .ok (seen ++ [(type, body, bodyLen)])

/-- A callback that collects what the streaming parser hands over. -/
def collectHeaders (seen : List (PacketType × Buffer × ℕ × Buffer)) (type : PacketType)
    (body : Buffer) (bodyLen : ℕ) (header : Buffer) :
    Except Empty (List (PacketType × Buffer × ℕ × Buffer)) :=
  .ok (seen ++ [(type, body, bodyLen, header)])

/-- A callback that appends what it sees collects everything in order. -/
theorem foldlM_collect {α : Type*} (look : Packet → α) (packets : List Packet) (seen : List α) :
    packets.foldlM (fun seen packet => (.ok (seen ++ [look packet]) : Except Empty (List α))) seen =
      .ok (seen ++ packets.map look) := by
  induction packets generalizing seen with
  | nil => simp [pure, Except.pure]
  | cons packet later ih =>
    rw [List.foldlM_cons]
    exact (ih (seen ++ [look packet])).trans (by simp)

/-- What is seen of the packets of a file, without their places. -/
theorem reported_map {α : Type*} (look : PacketType → Buffer → ℕ → Buffer → α) (start : ℕ)
    (packets : List RawPacket) :
    (reported start packets).map
        (fun packet => look packet.type packet.body packet.bodyLen packet.header) =
      packets.map fun packet => look packet.type packet.body packet.body.length packet.header := by
  induction packets generalizing start with
  | nil => rfl
  | cons packet later ih =>
    rw [reported_cons, List.map_cons, List.map_cons, ih]

/-- Both parsers return well-formed packets as the sequence they are. -/
theorem parse_packetBytes (packets : List RawPacket)
    (formed : ∀ packet ∈ packets, packet.WellFormed) :
    par3_parse_buffer collectBodies (packetBytes packets) [] =
        .ok (packets.map fun packet => (packet.type, packet.body, packet.body.length)) ∧
      ∀ chunks : List Buffer, (∀ chunk ∈ chunks, chunk ≠ []) →
        (∀ chunk ∈ chunks, chunk.length ≤ CHUNK_SIZE) → chunks.flatten = packetBytes packets →
        par3_parse_stream CHUNK_SIZE collectHeaders chunks [] =
          .ok (packets.map fun packet =>
            (packet.type, packet.body, packet.body.length, packet.header)) := by
  obtain ⟨found, complete⟩ := packetsOf_packetBytes packets formed
  constructor
  · have scanned := scan_packets [] packets formed
    rw [List.nil_append, List.length_nil] at scanned
    rw [par3_parse_buffer, parseBufferFrom_scan _ _ 0 0 (Nat.le_refl _) _ (by rw [scanned])]
    change (packetsOf (packetBytes packets)).foldlM _ _ = _
    rw [found, ← reported_map (fun type body bodyLen _ => (type, body, bodyLen)) 0 packets]
    exact foldlM_collect (fun packet => (packet.type, packet.body, packet.bodyLen)) _ []
  · intro chunks nonempty bounded whole
    have parsed := readChunk_packets (fun seen packet =>
      collectHeaders seen packet.type packet.body packet.bodyLen packet.header) chunks nonempty
      bounded []
    have collected := foldlM_collect (fun packet =>
      (packet.type, packet.body, packet.bodyLen, packet.header)) (reported 0 packets) []
    rw [List.nil_append, reported_map (fun type body bodyLen header =>
      (type, body, bodyLen, header)) 0 packets] at collected
    rw [whole, found, complete] at parsed
    rw [par3_parse_stream, parsed]
    simp only [collectHeaders, collected]
    rfl

/-- A created packet is well formed and passes its checksum. -/
theorem CreatedPacket.packet_wellFormed (blake3 : Hash) (log2 : ℕ → UInt32) (inputSetId : Buffer)
    (idLength : inputSetId.length = 8) (created : CreatedPacket) (inRange : created.InRange log2) :
    (created.packet blake3 log2 inputSetId).WellFormed ∧
      (created.packet blake3 log2 inputSetId).valid blake3 = true := by
  have formed : (created.packet blake3 log2 inputSetId).WellFormed :=
    ⟨by simp [packet, createPacket], idLength, inRange.1⟩
  exact ⟨formed, createPacket_valid blake3 created.type inputSetId (created.body log2) formed⟩

/-- Created packets, written back to back, are parsed as the same sequence: the same types and
bodies, the same 64-bit fields, and checksums that match. -/
theorem created_packets_parsed (blake3 : Hash) (log2 : ℕ → UInt32) (inputSetId : Buffer)
    (idLength : inputSetId.length = 8) (created : List CreatedPacket)
    (inRange : ∀ packet ∈ created, packet.InRange log2) :
    let packets := created.map (CreatedPacket.packet blake3 log2 inputSetId)
    par3_parse_buffer collectBodies (packetBytes packets) [] =
        .ok (created.map fun packet =>
          (packet.type, packet.body log2, (packet.body log2).length)) ∧
      (∀ chunks : List Buffer, (∀ chunk ∈ chunks, chunk ≠ []) →
        (∀ chunk ∈ chunks, chunk.length ≤ CHUNK_SIZE) → chunks.flatten = packetBytes packets →
        par3_parse_stream CHUNK_SIZE collectHeaders chunks [] =
          .ok (packets.map fun packet =>
            (packet.type, packet.body, packet.body.length, packet.header))) ∧
      ∀ packet ∈ created,
        validatePacketChecksum blake3 (packet.packet blake3 log2 inputSetId).header
            (packet.body log2) = true ∧
          ∀ field ∈ packet.fields, readUInt64LE (packet.body log2) field.1 = some field.2 := by
  intro packets
  have formed : ∀ packet ∈ packets, packet.WellFormed := by
    intro packet member
    obtain ⟨fields, given, rfl⟩ := List.mem_map.mp member
    exact (fields.packet_wellFormed blake3 log2 inputSetId idLength (inRange fields given)).1
  obtain ⟨bodies, headers⟩ := parse_packetBytes packets formed
  refine ⟨?_, headers, fun packet given => ⟨?_, ?_⟩⟩
  · rw [bodies, List.map_map]
    rfl
  · exact (packet.packet_wellFormed blake3 log2 inputSetId idLength (inRange packet given)).2
  · intro field member
    exact packet.readUInt64LE_body log2 (inRange packet given) field member

/-- A block that is the magic sequence itself, in front of a START packet. -/
def magicBlock : List CreatedPacket := [.data 7 PAR3_MAGIC, .start 1024]

theorem magicBlock_inRange : ∀ packet ∈ magicBlock, packet.InRange fun n => UInt32.ofNat n.log2 := by
  intro packet member
  simp only [magicBlock, List.mem_cons, List.not_mem_nil, or_false] at member
  rcases member with rfl | rfl
  · exact ⟨by decide, by decide, roundDouble_of_lt _ (by decide)⟩
  · exact ⟨by decide, by decide, roundDouble_of_lt _ (by decide)⟩

/-- The parser does not stop at the magic sequence in the block. -/
theorem magicBlock_parsed :
    par3_parse_buffer collectBodies (packetBytes (magicBlock.map (CreatedPacket.packet byteSum
        (fun n => UInt32.ofNat n.log2) (List.replicate 8 0)))) [] =
      .ok (magicBlock.map fun packet => (packet.type, packet.body (fun n => UInt32.ofNat n.log2),
        (packet.body fun n => UInt32.ofNat n.log2).length)) :=
  (created_packets_parsed byteSum (fun n => UInt32.ofNat n.log2) (List.replicate 8 0) rfl magicBlock
    magicBlock_inRange).1

end Par3
