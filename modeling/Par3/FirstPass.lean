import Par3.Repair

/-!
# What the first pass records

The callback of the first pass is a fold whose outcome has a closed form: it throws when
some body is too short for its fields, and otherwise keeps the last START and the last
matrix packet and lists the offsets of the valid DATA and RECOVERY packets in file order.
For a file that is packets back to back, the second pass then reads each recorded block
from its own body and whatever packets follow it.
-/

namespace Par3

/-! ## The fold of the callback -/

section Callback

variable (blake3 : Hash)

/-- Whether the callback can read all fields of a packet that it looks at. -/
def readable (packet : Packet) : Bool :=
  match packet.type with
  | .START => decide (28 ≤ packet.body.length)
  | .CAUCHY | .MATRIX => decide (24 ≤ packet.body.length)
  | .DATA => !validatePacketChecksum blake3 packet.header packet.body ||
      decide (8 ≤ packet.body.length)
  | .RECOVERY => !validatePacketChecksum blake3 packet.header packet.body ||
      decide (16 ≤ packet.body.length)
  | _ => true

/-- The parameters a START packet sets. -/
def startOf (packet : Packet) : Option StartPacket :=
  if packet.type = .START then (readStart packet.body).toOption else none

/-- The parameters a matrix packet sets. -/
def matrixOf (packet : Packet) : Option MatrixPacket :=
  if packet.type = .CAUCHY ∨ packet.type = .MATRIX then (readMatrix packet.body).toOption else none

/-- The block a valid DATA packet records. -/
def dataOf (packet : Packet) : Option DataOffset :=
  if packet.type = .DATA ∧ validatePacketChecksum blake3 packet.header packet.body then
    some ⟨uint64At packet.body 0, packet.absBodyOffset + 8⟩
  else none

/-- The blocks a valid RECOVERY packet records. -/
def recoveryOf (packet : Packet) : Option RecoveryOffset :=
  if packet.type = .RECOVERY ∧ validatePacketChecksum blake3 packet.header packet.body then
    some ⟨uint64At packet.body 0, uint64At packet.body 8, packet.absBodyOffset + 16⟩
  else none

/-- The last value that some packet sets, or the one before. -/
def lastOf {α : Type*} (set : Packet → Option α) (packets : List Packet) (before : Option α) :
    Option α :=
  packets.foldl (fun value packet => (set packet).or value) before

@[simp] theorem lastOf_nil {α : Type*} (set : Packet → Option α) (before : Option α) :
    lastOf set [] before = before := rfl

theorem lastOf_cons {α : Type*} (set : Packet → Option α) (packet : Packet) (later : List Packet)
    (before : Option α) :
    lastOf set (packet :: later) before = lastOf set later ((set packet).or before) := rfl

/-- The state after a list of packets, none of which throws. -/
def recorded (packets : List Packet) (before : Pass1State) : Pass1State :=
  { startPacket := lastOf startOf packets before.startPacket
    matrix := lastOf matrixOf packets before.matrix
    dataBlockOffsets := before.dataBlockOffsets ++ packets.filterMap (dataOf blake3)
    recoveryOffsets := before.recoveryOffsets ++ packets.filterMap (recoveryOf blake3) }

theorem readStart_eq (body : Buffer) :
    readStart body = if 28 ≤ body.length then
      .ok ⟨body.getD 0 0, uint64At body 16, littleEndian (slice body 24 28)⟩
    else .error .rangeError := by
  unfold readStart
  by_cases long : 28 ≤ body.length
  · simp only [readUInt64LE, readUInt32LE, if_pos (show 16 + 8 ≤ body.length by omega),
      if_pos (show 24 + 4 ≤ body.length by omega)]
    rfl
  · by_cases first : 16 + 8 ≤ body.length
    · simp only [readUInt64LE, readUInt32LE, if_pos first,
        if_neg (show ¬ 24 + 4 ≤ body.length by omega)]
      rfl
    · simp only [readUInt64LE, if_neg first, if_neg long]
      rfl

theorem readMatrix_eq (body : Buffer) :
    readMatrix body = if 24 ≤ body.length then
      .ok { first_input := uint64At body 0
            last_input := uint64At body 8
            first_recovery := uint64At body 16
            recovery_count := if 32 ≤ body.length then readUInt64LE body 24 else none
            rows := if 40 ≤ body.length then readUInt32LE body 32 else none
            cols := if 40 ≤ body.length then readUInt32LE body 36 else none }
    else .error .rangeError := by
  unfold readMatrix
  by_cases long : 24 ≤ body.length
  · simp only [readUInt64LE, if_pos (show 0 + 8 ≤ body.length by omega),
      if_pos (show 8 + 8 ≤ body.length by omega), if_pos (show 16 + 8 ≤ body.length by omega)]
    rfl
  · rw [if_neg long]
    by_cases first : 0 + 8 ≤ body.length
    · by_cases second : 8 + 8 ≤ body.length
      · simp only [readUInt64LE, if_pos first, if_pos second,
          if_neg (show ¬ 16 + 8 ≤ body.length by omega)]
        rfl
      · simp only [readUInt64LE, if_pos first, if_neg second]
        rfl
    · simp only [readUInt64LE, if_neg first]
      rfl

/-- One call of the callback. -/
theorem pass1Callback_eq (before : Pass1State) (packet : Packet) :
    pass1Callback blake3 before packet =
      if readable blake3 packet then .ok (recorded blake3 [packet] before)
      else .error .rangeError := by
  unfold pass1Callback readable
  cases kind : packet.type with
  | START =>
    simp only [readStart_eq]
    by_cases long : 28 ≤ packet.body.length
    · simp [long, recorded, lastOf, startOf, matrixOf, dataOf, recoveryOf, kind, readStart_eq,
        Except.toOption]
    · simp [long]
  | CAUCHY =>
    simp only [readMatrix_eq]
    by_cases long : 24 ≤ packet.body.length
    · simp [long, recorded, lastOf, startOf, matrixOf, dataOf, recoveryOf, kind, readMatrix_eq,
        Except.toOption]
    · simp [long]
  | MATRIX =>
    simp only [readMatrix_eq]
    by_cases long : 24 ≤ packet.body.length
    · simp [long, recorded, lastOf, startOf, matrixOf, dataOf, recoveryOf, kind, readMatrix_eq,
        Except.toOption]
    · simp [long]
  | DATA =>
    cases valid : validatePacketChecksum blake3 packet.header packet.body with
    | false =>
      simp [recorded, lastOf, startOf, matrixOf, dataOf, recoveryOf, kind, valid]
      rfl
    | true =>
      by_cases long : 8 ≤ packet.body.length
      · simp [long, recorded, lastOf, startOf, matrixOf, dataOf, recoveryOf, kind, valid,
          readUInt64LE]
        rfl
      · simp [long, readUInt64LE]
        rfl
  | RECOVERY =>
    cases valid : validatePacketChecksum blake3 packet.header packet.body with
    | false =>
      simp [recorded, lastOf, startOf, matrixOf, dataOf, recoveryOf, kind, valid]
      rfl
    | true =>
      by_cases long : 16 ≤ packet.body.length
      · have short : 8 ≤ packet.body.length := by omega
        simp [long, short, recorded, lastOf, startOf, matrixOf, dataOf, recoveryOf, kind, valid,
          readUInt64LE]
        rfl
      · simp [long, readUInt64LE]
        rfl
  | _ =>
    simp [recorded, lastOf, startOf, matrixOf, dataOf, recoveryOf, kind]
    rfl

theorem recorded_cons (packet : Packet) (later : List Packet) (before : Pass1State) :
    recorded blake3 later (recorded blake3 [packet] before) =
      recorded blake3 (packet :: later) before := by
  simp only [recorded, lastOf, List.foldl_cons, List.foldl_nil, Pass1State.mk.injEq, true_and]
  constructor <;>
  · rw [List.append_assoc, ← List.filterMap_append]
    rfl

/-- The whole first pass: an exception at the first unreadable packet, or the closed form. -/
theorem foldlM_pass1Callback (packets : List Packet) (before : Pass1State) :
    packets.foldlM (pass1Callback blake3) before =
      if packets.all (readable blake3) then .ok (recorded blake3 packets before)
      else .error .rangeError := by
  induction packets generalizing before with
  | nil =>
    simp [recorded, lastOf]
    rfl
  | cons packet later ih =>
    rw [List.foldlM_cons, pass1Callback_eq, List.all_cons]
    cases readable blake3 packet with
    | false => rfl
    | true =>
      have rest := ih (recorded blake3 [packet] before)
      rw [recorded_cons] at rest
      rw [if_pos rfl, Bool.true_and]
      exact rest

end Callback

/-! ## Any file -/

/-- The packets that a parser reports, in file order. -/
def packetsOf (file : Buffer) : List Packet :=
  (packetFraming.received file).frames.map (FramedPacket.at 0)

/-- The bytes behind the last complete packet. -/
def leftoverOf (file : Buffer) : Buffer := (packetFraming.received file).leftover

/-- What both passes decode from the packets of a file, once its parameters are known. -/
def decoded (blake3 : Hash) (backend : Backend) (file : Buffer) (startPacket : StartPacket)
    (matrix : MatrixPacket) : RepairState where
  startPacket := startPacket
  matrix := matrix
  totalInputBlocks := matrix.inputCount
  totalRecoveryBlocks :=
    totalRecoveryBlocks matrix ((packetsOf file).filterMap (recoveryOf blake3))
  dataBlocks := readDataBlocks file startPacket.block_size
    (((packetsOf file).filterMap (dataOf blake3)).mergeSort fun a b =>
      decide (a.block_index ≤ b.block_index))
  recoveryData := readRecoveryData backend file startPacket.block_size
    ((packetsOf file).filterMap (recoveryOf blake3))

/-- The parse of a file that arrives in any chunks is the report over its packets. -/
theorem readChunk_packets {σ ε : Type*} (packetCallback : σ → Packet → Except ε σ)
    (chunks : List Buffer) (nonempty : ∀ chunk ∈ chunks, chunk ≠ [])
    (bounded : ∀ chunk ∈ chunks, chunk.length ≤ CHUNK_SIZE) (state : σ) :
    readChunk CHUNK_SIZE packetCallback chunks [] 0 state =
      match (packetsOf chunks.flatten).foldlM packetCallback state with
      | .error error => .error (.thrown error)
      | .ok state =>
        if 0 < (leftoverOf chunks.flatten).length then .error .truncated else .ok state :=
  readChunk_report CHUNK_SIZE packetCallback chunks nonempty bounded state

/-- The chunked parse of a whole file is the report over its packets. -/
theorem readChunk_cut {σ ε : Type*} (packetCallback : σ → Packet → Except ε σ) (file : Buffer)
    (state : σ) :
    readChunk CHUNK_SIZE packetCallback (cut CHUNK_SIZE file) [] 0 state =
      match (packetsOf file).foldlM packetCallback state with
      | .error error => .error (.thrown error)
      | .ok state => if 0 < (leftoverOf file).length then .error .truncated else .ok state := by
  obtain ⟨whole, pieces⟩ := cut_spec CHUNK_SIZE (by decide) file
  have parsed := readChunk_packets packetCallback (cut CHUNK_SIZE file)
    (fun piece member => (pieces piece member).1) (fun piece member => (pieces piece member).2) state
  rwa [whole] at parsed

/-- Both passes over any file: the first packet that cannot be read, a cut off packet, a
missing parameter packet, or what the packets hold. -/
theorem readArchive_eq (blake3 : Hash) (backend : Backend) (file : Buffer) :
    readArchive blake3 backend file =
      if (packetsOf file).all (readable blake3) = false then .error (.parse (.thrown .rangeError))
      else if 0 < (leftoverOf file).length then .error (.parse .truncated)
      else match lastOf startOf (packetsOf file) none, lastOf matrixOf (packetsOf file) none with
        | none, _ => .error .noStart
        | some _, none => .error .noMatrix
        | some startPacket, some matrix => .ok (decoded blake3 backend file startPacket matrix) := by
  unfold readArchive
  rw [par3_parse_stream_pass1, readChunk_cut, foldlM_pass1Callback]
  cases read : (packetsOf file).all (readable blake3) with
  | false => rfl
  | true =>
    by_cases cutOff : 0 < (leftoverOf file).length
    · simp only [if_true, if_pos cutOff, Bool.true_eq_false, if_false]
    · simp only [if_true, if_neg cutOff, Bool.true_eq_false, if_false, recorded, List.nil_append]
      cases lastOf startOf (packetsOf file) none with
      | none => rfl
      | some startPacket =>
        cases lastOf matrixOf (packetsOf file) none with
        | none => rfl
        | some matrix => rfl

/-! ## Files that are packets back to back -/

/-- The packets of such a file as the parser reports them, from a start offset on. -/
def reported (start : ℕ) (packets : List RawPacket) : List Packet :=
  (placed start packets).map (FramedPacket.at 0)

@[simp] theorem reported_nil (start : ℕ) : reported start [] = [] := rfl

@[simp] theorem reported_cons (start : ℕ) (packet : RawPacket) (later : List RawPacket) :
    reported start (packet :: later) =
      { type := packet.type
        body := packet.body
        bodyLen := packet.body.length
        absBodyOffset := start + 48
        header := packet.header } :: reported (start + packet.bytes.length) later := by
  simp [reported, placed, FramedPacket.at, RawPacket.framed]

/-- A reported packet has the type, body and header of a packet of the file. -/
theorem exists_of_mem_reported {start : ℕ} {packets : List RawPacket} {packet : Packet}
    (member : packet ∈ reported start packets) :
    ∃ raw ∈ packets, packet.type = raw.type ∧ packet.body = raw.body ∧
      packet.header = raw.header := by
  induction packets generalizing start with
  | nil => simp at member
  | cons raw later ih =>
    rw [reported_cons] at member
    rcases List.mem_cons.mp member with first | rest
    · exact ⟨raw, by simp, by rw [first], by rw [first], by rw [first]⟩
    · obtain ⟨other, inside, same⟩ := ih rest
      exact ⟨other, by simp [inside], same⟩

section Windows

variable (blake3 : Hash)

/-- The DATA blocks that the second pass reads, in file order: a block size of bytes from
behind the index field on, over the end of the packet if it is short. -/
def dataWindows (blockSize : ℕ) : List RawPacket → List DataBlock
  | [] => []
  | packet :: later =>
    (if packet.type = .DATA ∧ packet.valid blake3 then
      [{ block_index := uint64At packet.body 0
         data := ((packet.body ++ packetBytes later).drop 8).take blockSize }]
    else []) ++ dataWindows blockSize later

/-- The recovery data that the second pass reads, in file order. -/
def recoveryWindows (backend : Backend) (blockSize : ℕ) : List RawPacket → List RecoveryData
  | [] => []
  | packet :: later =>
    (if packet.type = .RECOVERY ∧ packet.valid blake3 then
      let recDataLen := uint64At packet.body 8 * blockSize
      [{ first_block := uint64At packet.body 0
         block_count := uint64At packet.body 8
         data := copyInto (backend.allocBuffer recDataLen)
           (((packet.body ++ packetBytes later).drop 16).take recDataLen) 0 }]
    else []) ++ recoveryWindows backend blockSize later

/-- Behind the header of a packet stand its body and the packets after it. -/
theorem readAt_body (before : Buffer) {packet : RawPacket} (formed : packet.WellFormed)
    (later : List RawPacket) (length skip : ℕ) :
    readAt (before ++ packetBytes (packet :: later)) length (before.length + 48 + skip) =
      ((packet.body ++ packetBytes later).drop skip).take length := by
  have width := RawPacket.header_length formed
  have behind : (before ++ packetBytes (packet :: later)).drop (before.length + 48) =
      packet.body ++ packetBytes later := by
    rw [packetBytes_cons, RawPacket.bytes, ← List.drop_drop,
      List.drop_append_of_le_length (Nat.le_refl _), List.drop_length, List.nil_append,
      List.append_assoc, List.drop_append_of_le_length (by omega),
      List.drop_eq_nil_of_le (by omega), List.nil_append]
  rw [readAt, ← List.drop_drop, behind]

theorem readDataBlocks_reported (blockSize : ℕ) (before : Buffer) (packets : List RawPacket)
    (formed : ∀ packet ∈ packets, packet.WellFormed) :
    readDataBlocks (before ++ packetBytes packets) blockSize
        ((reported before.length packets).filterMap (dataOf blake3)) =
      dataWindows blake3 blockSize packets := by
  induction packets generalizing before with
  | nil => rfl
  | cons packet later ih =>
    have rest := ih (before ++ packet.bytes)
      (fun other member => formed other (by simp [member]))
    rw [List.append_assoc, List.length_append, ← packetBytes_cons] at rest
    have window := readAt_body before (formed packet (by simp)) later blockSize 8
    rw [reported_cons, List.filterMap_cons, dataWindows]
    by_cases recordedHere : packet.type = .DATA ∧ packet.valid blake3
    · rw [dataOf, if_pos (by simpa [RawPacket.valid] using recordedHere), if_pos recordedHere]
      simp only [readDataBlocks, List.map_cons] at rest ⊢
      rw [window, rest]
      rfl
    · rw [dataOf, if_neg (by simpa [RawPacket.valid] using recordedHere), if_neg recordedHere,
        List.nil_append]
      exact rest

theorem readRecoveryData_reported (backend : Backend) (blockSize : ℕ) (before : Buffer)
    (packets : List RawPacket) (formed : ∀ packet ∈ packets, packet.WellFormed) :
    readRecoveryData backend (before ++ packetBytes packets) blockSize
        ((reported before.length packets).filterMap (recoveryOf blake3)) =
      recoveryWindows blake3 backend blockSize packets := by
  induction packets generalizing before with
  | nil => rfl
  | cons packet later ih =>
    have rest := ih (before ++ packet.bytes)
      (fun other member => formed other (by simp [member]))
    rw [List.append_assoc, List.length_append, ← packetBytes_cons] at rest
    have window := readAt_body before (formed packet (by simp)) later
      (uint64At packet.body 8 * blockSize) 16
    rw [reported_cons, List.filterMap_cons, recoveryWindows]
    by_cases recordedHere : packet.type = .RECOVERY ∧ packet.valid blake3
    · rw [recoveryOf, if_pos (by simpa [RawPacket.valid] using recordedHere), if_pos recordedHere]
      simp only [readRecoveryData, List.map_cons] at rest ⊢
      rw [window, rest]
      rfl
    · rw [recoveryOf, if_neg (by simpa [RawPacket.valid] using recordedHere), if_neg recordedHere,
        List.nil_append]
      exact rest

/-- The packets of such a file, behind which nothing is left. -/
theorem packetsOf_packetBytes (packets : List RawPacket)
    (formed : ∀ packet ∈ packets, packet.WellFormed) :
    packetsOf (packetBytes packets) = reported 0 packets ∧ leftoverOf (packetBytes packets) = [] := by
  have scanned := scan_packets [] packets formed
  rw [List.nil_append, List.length_nil] at scanned
  rw [packetsOf, leftoverOf, Resync.Framing.received, scanned]
  simp [reported]

/-- Both passes over a file of packets none of which throws. -/
theorem readArchive_packets (backend : Backend) (packets : List RawPacket)
    (formed : ∀ packet ∈ packets, packet.WellFormed) (startPacket : StartPacket)
    (matrix : MatrixPacket)
    (read : (reported 0 packets).all (readable blake3) = true)
    (start : lastOf startOf (reported 0 packets) none = some startPacket)
    (parameters : lastOf matrixOf (reported 0 packets) none = some matrix) :
    readArchive blake3 backend (packetBytes packets) = .ok
      { startPacket, matrix
        totalInputBlocks := matrix.inputCount
        totalRecoveryBlocks :=
          totalRecoveryBlocks matrix ((reported 0 packets).filterMap (recoveryOf blake3))
        dataBlocks := (dataWindows blake3 startPacket.block_size packets).mergeSort
          fun a b => decide (a.block_index ≤ b.block_index)
        recoveryData := recoveryWindows blake3 backend startPacket.block_size packets } := by
  obtain ⟨found, complete⟩ := packetsOf_packetBytes packets formed
  have dataBlocks := readDataBlocks_reported blake3 startPacket.block_size [] packets formed
  have recoveryData := readRecoveryData_reported blake3 backend startPacket.block_size [] packets
    formed
  rw [List.nil_append, List.length_nil] at dataBlocks recoveryData
  rw [readArchive_eq, found, complete, read, start, parameters]
  simp only [Bool.true_eq_false, if_false, List.length_nil, Nat.lt_irrefl, decoded, found,
    recoveryData]
  congr 2
  rw [← dataBlocks, readDataBlocks, readDataBlocks]
  exact List.map_mergeSort fun _ _ _ _ => rfl

end Windows

end Par3
