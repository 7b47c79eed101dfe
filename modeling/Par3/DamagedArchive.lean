import Par3.FirstPass

/-!
# Repair's view of a damaged archive

A damaged archive is still a sequence of packets. The passes over it read the parameters
that create has written, one window of the file for each intact DATA packet, and the exact
recovery block for each intact RECOVERY packet. Only a window of a short block can differ
from the padded block: it goes on with the bytes of the packets that follow.
-/

namespace Par3

namespace Archive

variable (archive : Archive)

theorem blockData_length : archive.blockData.length = archive.totalBlocks := by
  rw [blockData, totalBlocks, List.length_flatMap]
  congr 1
  exact List.map_congr_left fun file _ => cut_length _ archive.blockSize_pos file.contents

/-- No block is longer than the block size. -/
theorem blockData_bounded (index : ℕ) :
    (archive.blockData.getD index []).length ≤ archive.blockSize := by
  rcases Nat.lt_or_ge index archive.blockData.length with inside | outside
  · rw [List.getD_eq_getElem _ _ inside]
    obtain ⟨file, _, member⟩ := List.mem_flatMap.mp (List.getElem_mem inside)
    exact ((cut_spec _ archive.blockSize_pos file.contents).2 _ member).2
  · rw [List.getD_eq_default _ _ outside]
    exact Nat.zero_le _

theorem inputBlock_length (index : ℕ) : (archive.inputBlock index).length = archive.blockSize :=
  padBlock_length _ _ (archive.blockData_bounded index)

theorem blockSize_eq : 8 * (archive.blockSize / 8) = archive.blockSize :=
  Nat.mul_div_cancel' archive.blockSize_words

theorem recoveryBlock_length (row : ℕ) : (archive.recoveryBlock row).length = archive.blockSize := by
  rw [recoveryBlock, ofWords_length, archive.blockSize_eq]

theorem totalBlocks_le : archive.totalBlocks ≤ 0x7FFFFFFF := archive.totalBlocks_small

theorem recoveryPackets_le : archive.recoveryPackets ≤ archive.recoverySlices := by
  unfold recoveryPackets
  split
  · exact Nat.zero_le _
  · exact Nat.le_refl _

/-! ## Packets -/

variable (blake3 : Hash)

@[simp] theorem packet_type (type : PacketType) (body : Buffer) :
    (archive.packet blake3 type body).type = type := rfl

@[simp] theorem packet_body (type : PacketType) (body : Buffer) :
    (archive.packet blake3 type body).body = body := rfl

/-- A created packet with a body that a buffer can hold is well formed. -/
theorem packet_wellFormed (type : PacketType) (body : Buffer) (small : body.length < 2 ^ 52 + 2 ^ 51) :
    (archive.packet blake3 type body).WellFormed where
  checksum_length := by simp [packet, createPacket]
  inputSetId_length := archive.inputSetId_length
  body_small := by
    change 48 + body.length < 2 ^ 53
    omega

theorem packet_valid (type : PacketType) (body : Buffer) (small : body.length < 2 ^ 52 + 2 ^ 51) :
    (archive.packet blake3 type body).valid blake3 = true :=
  createPacket_valid blake3 type archive.inputSetId body
    (archive.packet_wellFormed blake3 type body small)

theorem dataBody_small (index : ℕ) :
    (dataBody index (archive.blockData.getD index [])).length < 2 ^ 52 + 2 ^ 51 := by
  have bound := archive.blockData_bounded index
  have small := archive.blockSize_small
  rw [dataBody, List.length_append, toLittleEndian_length]
  omega

theorem recoveryBody_length (row : ℕ) :
    (archive.recoveryBody row).length = 16 + archive.blockSize := by
  simp [recoveryBody, archive.recoveryBlock_length]
  omega

theorem recoveryBody_small (row : ℕ) : (archive.recoveryBody row).length < 2 ^ 52 + 2 ^ 51 := by
  have small := archive.blockSize_small
  rw [archive.recoveryBody_length]
  omega

theorem startBody_length : archive.startBody.length = 34 := by simp [startBody]

theorem matrixBody_length : archive.matrixBody.length = 40 := by simp [matrixBody]

/-- FILE and permissions packets have sixteen checksum bytes, and there are at most two for
each file. -/
theorem filePackets_checksums :
    ((archive.filePackets blake3).flatMap RawPacket.checksum).length ≤ 32 * archive.files.length := by
  unfold filePackets
  induction archive.files with
  | nil => simp
  | cons file later ih =>
    rw [List.flatMap_cons, List.flatMap_append, List.length_append, List.length_cons]
    have here : ((archive.packet blake3 .FILE (fileBody file) ::
        if fileMode file ≠ 0x81A4 then [archive.packet blake3 .UNIX_PERM (permissionsBody file)]
        else []).flatMap RawPacket.checksum).length ≤ 32 := by
      split <;> simp [packet, createPacket]
    omega

/-- What the header packets are: created packets of small bodies, none of them a DATA or
RECOVERY packet, with one body each for START and CAUCHY. -/
theorem headerPackets_spec (packet : RawPacket) (member : packet ∈ archive.headerPackets blake3) :
    packet.WellFormed ∧ packet.type ≠ .DATA ∧ packet.type ≠ .RECOVERY ∧ packet.type ≠ .MATRIX ∧
      (packet.type = .START → packet.body = archive.startBody) ∧
      (packet.type = .CAUCHY → packet.body = archive.matrixBody) := by
  have silent (type : PacketType) (body : Buffer) (small : body.length < 2 ^ 52 + 2 ^ 51)
      (kind : type ≠ .DATA ∧ type ≠ .RECOVERY ∧ type ≠ .MATRIX ∧ type ≠ .START ∧
        type ≠ .CAUCHY) (packet : RawPacket) (same : packet = archive.packet blake3 type body) :
      packet.WellFormed ∧ packet.type ≠ .DATA ∧ packet.type ≠ .RECOVERY ∧ packet.type ≠ .MATRIX ∧
        (packet.type = .START → packet.body = archive.startBody) ∧
        (packet.type = .CAUCHY → packet.body = archive.matrixBody) := by
    subst same
    exact ⟨archive.packet_wellFormed blake3 type body small, kind.1, kind.2.1, kind.2.2.1,
      fun start => absurd start kind.2.2.2.1, fun cauchy => absurd cauchy kind.2.2.2.2⟩
  have files := archive.files_small
  have checksums := archive.filePackets_checksums blake3
  simp only [headerPackets, List.mem_append, List.mem_map, List.mem_cons, List.not_mem_nil,
    or_false, Option.mem_toList] at member
  rcases member with ((⟨text, present, rfl⟩ | rfl | rfl) | file) | rfl
  · have small := archive.creator_small text present
    exact silent .CREATOR text (by omega) (by decide) _ rfl
  · exact ⟨archive.packet_wellFormed _ _ _ (by rw [archive.startBody_length]; norm_num),
      by simp, by simp, by simp, fun _ => rfl, by simp⟩
  · exact ⟨archive.packet_wellFormed _ _ _ (by rw [archive.matrixBody_length]; norm_num),
      by simp, by simp, by simp, by simp, fun _ => rfl⟩
  · obtain ⟨source, inside, packets⟩ := List.mem_flatMap.mp file
    obtain ⟨name, identifier⟩ := archive.names_small source inside
    rcases List.mem_cons.mp packets with created | permissions
    · refine silent .FILE (fileBody source) ?_ (by decide) _ created
      simp [fileBody, identifier]
      omega
    · split at permissions
      · refine silent .UNIX_PERM (permissionsBody source) ?_ (by decide) _
          (List.mem_singleton.mp permissions)
        simp [permissionsBody, identifier]
      · simp at permissions
  · refine silent .ROOT (archive.rootBody blake3) ?_ (by decide) _ rfl
    simp only [rootBody, List.length_append, toLittleEndian_length, List.length_cons,
      List.length_nil]
    omega

theorem startPacket_mem :
    archive.packet blake3 .START archive.startBody ∈ archive.headerPackets blake3 := by
  simp [headerPackets]

theorem matrixPacket_mem :
    archive.packet blake3 .CAUCHY archive.matrixBody ∈ archive.headerPackets blake3 := by
  simp [headerPackets]

/-- The parameters a START packet of this archive carries. -/
def startPacket : StartPacket :=
  { gf_size := 8, block_size := archive.blockSize, block_pow := archive.blockSize.log2 }

/-- The parameters its matrix packet carries. -/
def matrixPacket : MatrixPacket :=
  { first_input := 0
    last_input := if 0 < archive.totalBlocks then archive.totalBlocks - 1 else 0
    first_recovery := archive.totalBlocks
    recovery_count := some archive.recoverySlices
    rows := some archive.recoverySlices
    cols := some archive.totalBlocks }

theorem readStart_startBody : readStart archive.startBody = .ok archive.startPacket := by
  have small := archive.blockSize_small
  have size : uint64At archive.startBody 16 = archive.blockSize :=
    uint64At_written _ _ _ (by omega) (by simp [startBody, slice])
  have power : littleEndian (slice archive.startBody 24 28) = archive.blockSize.log2 := by
    have field : slice archive.startBody 24 28 = toLittleEndian 4 archive.blockSize.log2 := by
      simp [startBody, slice]
    have bound : archive.blockSize.log2 < 53 :=
      (Nat.log2_lt archive.blockSize_pos.ne').mpr (by omega)
    rw [field, littleEndian_toLittleEndian 4 _ (by omega)]
  rw [readStart_eq, if_pos (by rw [archive.startBody_length]; norm_num), size, power]
  rfl

/-- The fields of a matrix body, each at its offset. -/
theorem matrixBody_fields :
    slice archive.matrixBody 0 8 = toLittleEndian 8 0 ∧
      slice archive.matrixBody 8 16 = toLittleEndian 8
        (if 0 < archive.totalBlocks then archive.totalBlocks - 1 else 0) ∧
      slice archive.matrixBody 16 24 = toLittleEndian 8 archive.totalBlocks ∧
      slice archive.matrixBody 24 32 = toLittleEndian 8 archive.recoverySlices ∧
      slice archive.matrixBody 32 36 = toLittleEndian 4 archive.recoverySlices ∧
      slice archive.matrixBody 36 40 = toLittleEndian 4 archive.totalBlocks := by
  refine ⟨?_, ?_, ?_, ?_, ?_, ?_⟩ <;>
    simp [matrixBody, slice, List.drop_append, List.drop_eq_nil_of_le, List.take_of_length_le]

theorem readMatrix_matrixBody : readMatrix archive.matrixBody = .ok archive.matrixPacket := by
  have blocks := archive.totalBlocks_le
  have slices := archive.recoverySlices_small
  have length := archive.matrixBody_length
  obtain ⟨first, last, recovery, count, rows, cols⟩ := archive.matrixBody_fields
  have lastSmall : (if 0 < archive.totalBlocks then archive.totalBlocks - 1 else 0) < 2 ^ 53 := by
    split <;> omega
  rw [readMatrix_eq, if_pos (by omega), uint64At_written _ 0 _ (by norm_num) first,
    uint64At_written _ 8 _ lastSmall last, uint64At_written _ 16 _ (by omega) recovery]
  simp only [readUInt64LE, readUInt32LE, length, rows, cols,
    uint64At_written _ 24 _ (show archive.recoverySlices < 2 ^ 53 by omega) count,
    littleEndian_toLittleEndian 4 _ (show archive.recoverySlices < 256 ^ 4 by omega),
    littleEndian_toLittleEndian 4 _ (show archive.totalBlocks < 256 ^ 4 by omega)]
  rfl

end Archive

/-! ## The first pass over a damaged archive -/

/-- When only one value is ever set, and some packet sets it, it is the last value. -/
theorem lastOf_unique {α : Type*} {set : Packet → Option α} {packets : List Packet} {value : α}
    (only : ∀ packet ∈ packets, set packet = none ∨ set packet = some value)
    (some_sets : ∃ packet ∈ packets, set packet = some value) :
    lastOf set packets none = some value := by
  have general : ∀ (packets : List Packet) (before : Option α),
      (∀ packet ∈ packets, set packet = none ∨ set packet = some value) →
      (before = some value ∨ ∃ packet ∈ packets, set packet = some value) →
      lastOf set packets before = some value := by
    intro packets
    induction packets with
    | nil =>
      intro before _ sets
      simpa [lastOf] using sets
    | cons packet later ih =>
      intro before only sets
      refine ih ((set packet).or before)
        (fun other member => only other (by simp [member])) ?_
      rcases only packet (by simp) with silent | here
      · rcases sets with earlier | ⟨other, member, found⟩
        · exact .inl (by rw [silent, earlier]; rfl)
        · rcases List.mem_cons.mp member with same | inside
          · rw [same, silent] at found
            cases found
          · exact .inr ⟨other, inside, found⟩
      · exact .inl (by rw [here]; rfl)
  exact general packets none only (.inr some_sets)

theorem mem_reported_of_mem {start : ℕ} {packets : List RawPacket} {raw : RawPacket}
    (member : raw ∈ packets) :
    ∃ packet ∈ reported start packets, packet.type = raw.type ∧ packet.body = raw.body ∧
      packet.header = raw.header := by
  induction packets generalizing start with
  | nil => simp at member
  | cons first later ih =>
    rcases List.mem_cons.mp member with rfl | inside
    · exact ⟨_, by rw [reported_cons]; exact List.mem_cons_self, rfl, rfl, rfl⟩
    · obtain ⟨packet, found, same⟩ := ih inside
      exact ⟨packet, by rw [reported_cons]; exact List.mem_cons_of_mem _ found, same⟩

namespace Damage

variable {blake3 : Hash} (damage : Damage blake3) (archive : Archive)

/-- The DATA packets found for a range of indices. -/
def dataPackets (start count : ℕ) : List RawPacket :=
  (List.range' start count).filterMap fun index =>
    (damage.data index).apply (archive.dataPacket blake3 index)

/-- The RECOVERY packets found for a range of rows. -/
def recoveryPackets (start count : ℕ) : List RawPacket :=
  (List.range' start count).filterMap fun row =>
    (damage.recovery row).apply (archive.recoveryPacket blake3 row)

theorem packets_eq : damage.packets archive = archive.headerPackets blake3 ++
    (damage.dataPackets archive 0 archive.totalBlocks ++
      damage.recoveryPackets archive 0 archive.recoveryPackets) := by
  rw [packets, dataPackets, recoveryPackets, List.append_assoc, List.range_eq_range',
    List.range_eq_range']

/-- A DATA packet of the damaged archive is created or fails its checksum. -/
theorem dataPackets_spec (start count : ℕ) (packet : RawPacket)
    (member : packet ∈ damage.dataPackets archive start count) :
    packet.WellFormed ∧ packet.type = .DATA ∧
      (packet.valid blake3 = true → 8 ≤ packet.body.length) := by
  obtain ⟨index, _, applied⟩ := List.mem_filterMap.mp member
  cases fate : damage.data index with
  | intact =>
    rw [fate] at applied
    obtain rfl := Option.some.inj applied
    refine ⟨archive.packet_wellFormed _ _ _ (archive.dataBody_small index), rfl, fun _ => ?_⟩
    change 8 ≤ (Archive.dataBody index _).length
    rw [Archive.dataBody, List.length_append, toLittleEndian_length]
    omega
  | lost =>
    rw [fate] at applied
    cases applied
  | damaged replacement =>
    rw [fate] at applied
    obtain rfl := Option.some.inj applied
    obtain ⟨formed, type, fails⟩ := damage.data_fails index _ fate
    exact ⟨formed, type, fun valid => by simp [fails] at valid⟩

theorem recoveryPackets_spec (start count : ℕ) (packet : RawPacket)
    (member : packet ∈ damage.recoveryPackets archive start count) :
    packet.WellFormed ∧ packet.type = .RECOVERY ∧
      (packet.valid blake3 = true → 16 ≤ packet.body.length) := by
  obtain ⟨row, _, applied⟩ := List.mem_filterMap.mp member
  cases fate : damage.recovery row with
  | intact =>
    rw [fate] at applied
    obtain rfl := Option.some.inj applied
    refine ⟨archive.packet_wellFormed _ _ _ (archive.recoveryBody_small row), rfl, fun _ => ?_⟩
    change 16 ≤ (archive.recoveryBody row).length
    rw [archive.recoveryBody_length]
    omega
  | lost =>
    rw [fate] at applied
    cases applied
  | damaged replacement =>
    rw [fate] at applied
    obtain rfl := Option.some.inj applied
    obtain ⟨formed, type, fails⟩ := damage.recovery_fails row _ fate
    exact ⟨formed, type, fun valid => by simp [fails] at valid⟩

theorem packets_wellFormed (packet : RawPacket) (member : packet ∈ damage.packets archive) :
    packet.WellFormed := by
  rw [packets_eq, List.mem_append, List.mem_append] at member
  rcases member with header | data | recovery
  · exact (archive.headerPackets_spec blake3 packet header).1
  · exact (damage.dataPackets_spec archive _ _ packet data).1
  · exact (damage.recoveryPackets_spec archive _ _ packet recovery).1

/-- Every packet can be read, and the only parameters are those of create. -/
theorem packets_readable (packet : Packet) (member : packet ∈ reported 0 (damage.packets archive)) :
    readable blake3 packet = true ∧
      (startOf packet = none ∨ startOf packet = some archive.startPacket) ∧
      (matrixOf packet = none ∨ matrixOf packet = some archive.matrixPacket) := by
  obtain ⟨raw, inside, type, body, header⟩ := exists_of_mem_reported member
  rw [packets_eq, List.mem_append, List.mem_append] at inside
  unfold readable startOf matrixOf
  rw [type, body, header]
  rcases inside with inside | inside | inside
  · obtain ⟨_, data, recovery, matrix, start, cauchy⟩ :=
      archive.headerPackets_spec blake3 raw inside
    cases kind : raw.type with
    | START =>
      simp [start kind, archive.startBody_length, archive.readStart_startBody, Except.toOption]
    | CAUCHY =>
      simp [cauchy kind, archive.matrixBody_length, archive.readMatrix_matrixBody,
        Except.toOption]
    | MATRIX => exact absurd kind matrix
    | DATA => exact absurd kind data
    | RECOVERY => exact absurd kind recovery
    | _ => simp
  · obtain ⟨_, kind, long⟩ := damage.dataPackets_spec archive _ _ raw inside
    rw [kind]
    change raw.valid blake3 = true → _ at long
    cases valid : raw.valid blake3 with
    | false =>
      unfold RawPacket.valid at valid
      simp [valid]
    | true =>
      have enough := long valid
      simp [enough]
  · obtain ⟨_, kind, long⟩ := damage.recoveryPackets_spec archive _ _ raw inside
    rw [kind]
    cases valid : raw.valid blake3 with
    | false =>
      unfold RawPacket.valid at valid
      simp [valid]
    | true =>
      have enough := long valid
      simp [enough]

/-- The bytes behind a DATA packet: the later DATA packets and the RECOVERY packets. -/
def following (index : ℕ) : Buffer :=
  packetBytes (damage.dataPackets archive (index + 1) (archive.totalBlocks - (index + 1)) ++
    damage.recoveryPackets archive 0 archive.recoveryPackets)

/-- What the second pass reads for an intact DATA packet. -/
def readBlock (index : ℕ) : Buffer :=
  (archive.blockData.getD index [] ++ damage.following archive index).take archive.blockSize

/-- The DATA blocks that are read, in index order. -/
def dataBlocks : List DataBlock :=
  (List.range archive.totalBlocks).filterMap fun index =>
    if (damage.data index).survives then some ⟨index, damage.readBlock archive index⟩ else none

/-- The recovery blocks that are read, in row order. -/
def recoveryData : List RecoveryData :=
  (List.range archive.recoveryPackets).filterMap fun row =>
    if (damage.recovery row).survives then
      some ⟨archive.totalBlocks + row, 1, archive.recoveryBlock row⟩
    else none

/-- Packets of other types contribute no DATA block. -/
theorem dataWindows_other (blockSize : ℕ) (first second : List RawPacket)
    (other : ∀ packet ∈ first, packet.type ≠ .DATA) :
    dataWindows blake3 blockSize (first ++ second) = dataWindows blake3 blockSize second := by
  induction first with
  | nil => rfl
  | cons packet later ih =>
    rw [List.cons_append, dataWindows, if_neg (fun kind => other packet (by simp) kind.1),
      List.nil_append]
    exact ih fun packet member => other packet (by simp [member])

theorem recoveryWindows_other (backend : Backend) (blockSize : ℕ) (first second : List RawPacket)
    (other : ∀ packet ∈ first, packet.type ≠ .RECOVERY) :
    recoveryWindows blake3 backend blockSize (first ++ second) =
      recoveryWindows blake3 backend blockSize second := by
  induction first with
  | nil => rfl
  | cons packet later ih =>
    rw [List.cons_append, recoveryWindows, if_neg (fun kind => other packet (by simp) kind.1),
      List.nil_append]
    exact ih fun packet member => other packet (by simp [member])

/-- An intact DATA packet stores its index, and its data is the rest of its body. -/
theorem dataBody_index (index : ℕ) (data : Buffer) (small : index < 2 ^ 53) :
    uint64At (Archive.dataBody index data) 0 = index :=
  uint64At_written _ 0 _ small (by simp [Archive.dataBody, slice])

/-- The DATA packets from one index on are read as the intact blocks from there on. The
induction is on their number; each block sees the packets of the later indices. -/
theorem dataWindows_range (start count : ℕ) (last : start + count = archive.totalBlocks) :
    dataWindows blake3 archive.blockSize (damage.dataPackets archive start count ++
        damage.recoveryPackets archive 0 archive.recoveryPackets) =
      (List.range' start count).filterMap fun index =>
        if (damage.data index).survives then some ⟨index, damage.readBlock archive index⟩
        else none := by
  induction count generalizing start with
  | zero =>
    have none_left : damage.dataPackets archive start 0 = [] := rfl
    have windows := @dataWindows_other blake3 archive.blockSize
      (damage.recoveryPackets archive 0 archive.recoveryPackets) [] (fun packet member => by
        rw [(damage.recoveryPackets_spec archive _ _ packet member).2.1]
        decide)
    rw [List.append_nil] at windows
    rw [none_left, List.nil_append, windows]
    rfl
  | succ count ih =>
    have rest := ih (start + 1) (by omega)
    have later : archive.totalBlocks - (start + 1) = count := by omega
    have small := archive.totalBlocks_le
    rw [List.range'_succ, List.filterMap_cons, dataPackets, List.range'_succ, List.filterMap_cons]
    cases fate : damage.data start with
    | intact =>
      have valid := archive.packet_valid blake3 .DATA _ (archive.dataBody_small start)
      simp only [Fate.apply, Fate.survives, if_true]
      change dataWindows blake3 archive.blockSize (archive.dataPacket blake3 start ::
        (damage.dataPackets archive (start + 1) count ++ _)) = _
      rw [dataWindows, if_pos ⟨rfl, valid⟩, rest, List.singleton_append]
      congr 1
      change DataBlock.mk (uint64At (Archive.dataBody start _) 0)
        ((((Archive.dataBody start _) ++ _).drop 8).take _) = _
      rw [dataBody_index _ _ (by omega), Archive.dataBody, List.append_assoc,
        List.drop_append_of_le_length (by simp), List.drop_eq_nil_of_le (by simp), List.nil_append,
        readBlock, following, later]
    | lost =>
      simp only [Fate.apply, Fate.survives, Bool.false_eq_true, if_false]
      exact rest
    | damaged replacement =>
      obtain ⟨_, _, fails⟩ := damage.data_fails start _ fate
      simp only [Fate.apply, Fate.survives, Bool.false_eq_true, if_false]
      change dataWindows blake3 archive.blockSize (replacement ::
        (damage.dataPackets archive (start + 1) count ++ _)) = _
      rw [dataWindows, if_neg (by simp [fails]), List.nil_append]
      exact rest

/-- Copying a whole buffer over one of the same length replaces it. -/
theorem copyInto_whole (target source : Buffer) (same : target.length = source.length) :
    copyInto target source 0 = source := by
  rw [copyInto, List.take_zero, List.nil_append, Nat.sub_zero, same, List.take_length,
    List.drop_eq_nil_of_le (by omega), List.append_nil]

/-- The RECOVERY packets from one row on are read as the intact recovery blocks. -/
theorem recoveryWindows_range (backend : Backend) (start count : ℕ)
    (small : archive.totalBlocks + (start + count) ≤ 2 ^ 53) :
    recoveryWindows blake3 backend archive.blockSize (damage.recoveryPackets archive start count) =
      (List.range' start count).filterMap fun row =>
        if (damage.recovery row).survives then
          some ⟨archive.totalBlocks + row, 1, archive.recoveryBlock row⟩
        else none := by
  induction count generalizing start with
  | zero => rfl
  | succ count ih =>
    have rest := ih (start + 1) (by omega)
    rw [List.range'_succ, List.filterMap_cons, recoveryPackets, List.range'_succ,
      List.filterMap_cons]
    cases fate : damage.recovery start with
    | intact =>
      have valid := archive.packet_valid blake3 .RECOVERY _ (archive.recoveryBody_small start)
      have length := archive.recoveryBlock_length start
      have index : uint64At (archive.recoveryBody start) 0 = archive.totalBlocks + start :=
        uint64At_written _ _ _ (by omega) (by simp [Archive.recoveryBody, slice])
      have one : uint64At (archive.recoveryBody start) 8 = 1 :=
        uint64At_written _ _ _ (by norm_num)
          (by simp [Archive.recoveryBody, slice])
      have block (rest : Buffer) :
          ((archive.recoveryBody start ++ rest).drop 16).take archive.blockSize =
            archive.recoveryBlock start := by
        rw [Archive.recoveryBody, List.append_assoc, List.drop_append_of_le_length (by simp),
          List.drop_eq_nil_of_le (by simp), List.nil_append,
          List.take_append_of_le_length (by omega), ← length, List.take_length]
      simp only [Fate.apply, Fate.survives, if_true]
      change recoveryWindows blake3 backend archive.blockSize
        (archive.recoveryPacket blake3 start :: damage.recoveryPackets archive (start + 1) count) = _
      rw [recoveryWindows, if_pos ⟨rfl, valid⟩, rest]
      change [RecoveryData.mk (uint64At (archive.recoveryBody start) 0)
        (uint64At (archive.recoveryBody start) 8) (copyInto (backend.allocBuffer
          (uint64At (archive.recoveryBody start) 8 * _))
          (((archive.recoveryBody start ++ _).drop 16).take
            (uint64At (archive.recoveryBody start) 8 * _)) 0)] ++ _ = _
      rw [index, one, Nat.one_mul, block, copyInto_whole _ _ (by simp [Backend.allocBuffer, length])]
      rfl
    | lost =>
      simp only [Fate.apply, Fate.survives, Bool.false_eq_true, if_false]
      exact rest
    | damaged replacement =>
      obtain ⟨_, _, fails⟩ := damage.recovery_fails start _ fate
      simp only [Fate.apply, Fate.survives, Bool.false_eq_true, if_false]
      change recoveryWindows blake3 backend archive.blockSize
        (replacement :: damage.recoveryPackets archive (start + 1) count) = _
      rw [recoveryWindows, if_neg (by simp [fails]), List.nil_append]
      exact rest

/-- The parameters that the packets of a damaged archive set. -/
theorem parameters_reported :
    lastOf startOf (reported 0 (damage.packets archive)) none = some archive.startPacket ∧
      lastOf matrixOf (reported 0 (damage.packets archive)) none = some archive.matrixPacket := by
  have readables := damage.packets_readable archive
  constructor
  · refine lastOf_unique (fun packet member => (readables packet member).2.1) ?_
    obtain ⟨packet, member, type, body, _⟩ := @mem_reported_of_mem 0 (damage.packets archive)
      (archive.packet blake3 .START archive.startBody) (by
        rw [packets_eq]
        exact List.mem_append_left _ (archive.startPacket_mem blake3))
    refine ⟨packet, member, ?_⟩
    rw [startOf, if_pos (by simpa using type), body, Archive.packet_body,
      archive.readStart_startBody]
    rfl
  · refine lastOf_unique (fun packet member => (readables packet member).2.2) ?_
    obtain ⟨packet, member, type, body, _⟩ := @mem_reported_of_mem 0 (damage.packets archive)
      (archive.packet blake3 .CAUCHY archive.matrixBody) (by
        rw [packets_eq]
        exact List.mem_append_left _ (archive.matrixPacket_mem blake3))
    refine ⟨packet, member, ?_⟩
    rw [matrixOf, if_pos (by simp [type]), body, Archive.packet_body,
      archive.readMatrix_matrixBody]
    rfl

/-- Both passes over a damaged archive. -/
theorem readArchive_file (backend : Backend) :
    readArchive blake3 backend (damage.file archive) = .ok
      { startPacket := archive.startPacket
        matrix := archive.matrixPacket
        totalInputBlocks := archive.matrixPacket.inputCount
        totalRecoveryBlocks := archive.recoverySlices
        dataBlocks := damage.dataBlocks archive
        recoveryData := damage.recoveryData archive } := by
  have readables := damage.packets_readable archive
  obtain ⟨start, matrix⟩ := damage.parameters_reported archive
  have read := readArchive_packets blake3 backend (damage.packets archive)
    (damage.packets_wellFormed archive) archive.startPacket archive.matrixPacket
    (List.all_eq_true.mpr fun packet member => (readables packet member).1) start matrix
  have headers (packet : RawPacket) (member : packet ∈ archive.headerPackets blake3) :=
    archive.headerPackets_spec blake3 packet member
  have small : archive.totalBlocks + (0 + archive.recoveryPackets) ≤ 2 ^ 53 := by
    have blocks := archive.totalBlocks_le
    have slices := archive.recoverySlices_small
    have packets := archive.recoveryPackets_le
    omega
  have windows : dataWindows blake3 archive.blockSize (damage.packets archive) =
      damage.dataBlocks archive := by
    rw [packets_eq, dataWindows_other _ _ _ fun packet member => (headers packet member).2.1,
      dataWindows_range _ _ _ _ (by omega), dataBlocks, List.range_eq_range']
  have recovery : recoveryWindows blake3 backend archive.blockSize (damage.packets archive) =
      damage.recoveryData archive := by
    rw [packets_eq, recoveryWindows_other _ _ _ _ fun packet member => (headers packet member).2.2.1,
      recoveryWindows_other _ _ _ _ fun packet member => by
        rw [(damage.dataPackets_spec archive _ _ packet member).2.1]
        decide,
      recoveryWindows_range _ _ _ _ _ small, recoveryData, List.range_eq_range']
  have sorted : (damage.dataBlocks archive).mergeSort
      (fun a b => decide (a.block_index ≤ b.block_index)) = damage.dataBlocks archive := by
    refine List.mergeSort_of_pairwise (List.Pairwise.filterMap _ ?_ List.pairwise_lt_range)
    intro first second earlier a found b next
    split at found
    · split at next
      · obtain rfl := Option.some.inj found
        obtain rfl := Option.some.inj next
        exact decide_eq_true (Nat.le_of_lt earlier)
      · simp at next
    · simp at found
  have size : archive.startPacket.block_size = archive.blockSize := rfl
  rw [size, windows, recovery, sorted] at read
  exact read

end Damage

end Par3
