import Par3.TrustedPackets

/-!
# What repair owes to packets it cannot trust

Repair decodes from trusted packets alone exactly when its parameters come from trusted
packets and none of its reads runs into the body of another. The parameters come from the
last START and the last matrix packet, trusted or not, and a packet of an unknown type is a
START packet. For the converse the hash has to tell bodies apart that differ in one byte.
-/

namespace Par3

/-- The bytes that the second pass reads: an offset and a length for each recorded packet. -/
def windows (blake3 : Hash) (file : Buffer) (blockSize : ℕ) : List (ℕ × ℕ) :=
  ((packetsOf file).filterMap (dataOf blake3)).map
      (fun entry => (entry.fileOffset, blockSize)) ++
    ((packetsOf file).filterMap (recoveryOf blake3)).map
      fun entry => (entry.fileOffset, entry.block_count * blockSize)

/-- The start and matrix packets are trusted, and what is read behind the recorded offsets
keeps clear of the bodies of other packets. -/
structure ReadsTrusted (blake3 : Hash) (file : Buffer) (start matrix : Packet) : Prop where
  start_trusted : start.trusted blake3 = true
  matrix_trusted : matrix.trusted blake3 = true
  windows_clear : ∀ window ∈ windows blake3 file (uint64At start.body 16), ∀ packet ∈ packetsOf file,
    packet.trusted blake3 = false → ∀ position, window.1 ≤ position →
      position < window.1 + window.2 → ¬ packet.covers position

/-- A file whose parse gets to the second pass is decoded from trusted packets. -/
def decodesTrusted (blake3 : Hash) (file : Buffer) : Prop :=
  (packetsOf file).all (readable blake3) = true → leftoverOf file = [] → ∀ start matrix,
    lastPacket Packet.setsStart (packetsOf file) = some start →
    lastPacket Packet.setsMatrix (packetsOf file) = some matrix →
    ReadsTrusted blake3 file start matrix

/-- What repair decodes, and with it its result, does not depend on packets that are not
trusted. -/
def determinedByTrusted (blake3 : Hash) (backend : Backend) (file : Buffer) : Prop :=
  ∀ other, Replaced blake3 file other →
    readArchive blake3 backend other = readArchive blake3 backend file ∧
      par3_repair blake3 backend other = par3_repair blake3 backend file

/-- The checksums of the packets that are not trusted tell two bodies apart that differ from
the stored one at the same single place. -/
def collisionFree (blake3 : Hash) (file : Buffer) : Prop :=
  ∀ packet ∈ packetsOf file, packet.trusted blake3 = false → ∀ index < packet.body.length,
    ∀ first second : UInt8, first ≠ second →
      (blake3 (packet.header.drop 24 ++ packet.body.set index first)).toList.take 16 ≠
        (blake3 (packet.header.drop 24 ++ packet.body.set index second)).toList.take 16

section

variable {blake3 : Hash} {backend : Backend} {file other : Buffer}

/-! ## Repair of a replacement -/

/-- Both passes over a replacement, in terms of the packets of the file. -/
theorem Replaced.readArchive (replaced : Replaced blake3 file other) (backend : Backend) :
    readArchive blake3 backend other =
      if (packetsOf file).all (readable blake3) = false then .error (.parse (.thrown .rangeError))
      else if 0 < (leftoverOf file).length then .error (.parse .truncated)
      else match
        (lastPacket Packet.setsStart (packetsOf file)).bind (startOf <| ·.rebodied other),
        (lastPacket Packet.setsMatrix (packetsOf file)).bind (matrixOf <| ·.rebodied other) with
        | none, _ => .error .noStart
        | some _, none => .error .noMatrix
        | some startPacket, some matrix => .ok (decoded blake3 backend other startPacket matrix) := by
  have same : (packetsOf other).all (readable blake3) = (packetsOf file).all (readable blake3) := by
    rw [replaced.packets.1, List.all_map, Bool.eq_iff_iff, List.all_eq_true, List.all_eq_true]
    refine forall₂_congr fun packet member => ?_
    rw [Function.comp_apply, replaced.readable_rebodied member]
  rw [readArchive_eq, same, replaced.packets.2]
  cases read : (packetsOf file).all (readable blake3) with
  | false => rfl
  | true =>
    rewrite [(replaced.parameters read).1, (replaced.parameters read).2]
    rfl

/-- A read that keeps clear of the packets that are not trusted is the same. -/
theorem Replaced.readAt (replaced : Replaced blake3 file other) (length position : ℕ)
    (clear : ∀ packet ∈ packetsOf file, packet.trusted blake3 = false → ∀ inside,
      position ≤ inside → inside < position + length → ¬ packet.covers inside) :
    readAt other length position = readAt file length position := by
  have same := @slice_congr other file position (position + length)
    fun inside first last => replaced.outside inside fun packet member rejected =>
      clear packet member rejected inside first last
  rwa [slice, slice, Nat.add_sub_cancel_left] at same

/-- The blocks that are read are the same when all reads keep clear. -/
theorem Replaced.decoded (replaced : Replaced blake3 file other) (backend : Backend)
    (startPacket : StartPacket) (matrix : MatrixPacket)
    (clear : ∀ window ∈ windows blake3 file startPacket.block_size, ∀ packet ∈ packetsOf file,
      packet.trusted blake3 = false → ∀ position, window.1 ≤ position →
        position < window.1 + window.2 → ¬ packet.covers position) :
    decoded blake3 backend other startPacket matrix =
      decoded blake3 backend file startPacket matrix := by
  rw [Par3.decoded, Par3.decoded, replaced.recorded_same.1, replaced.recorded_same.2]
  congr 1
  · refine List.map_congr_left fun entry member => ?_
    have recorded := List.mem_mergeSort.mp member
    rw [replaced.readAt _ _ (clear (entry.fileOffset, startPacket.block_size)
      (List.mem_append_left _ (List.mem_map_of_mem recorded)))]
  · refine List.map_congr_left fun entry member => ?_
    have window := List.mem_map_of_mem (f := fun entry : RecoveryOffset =>
      (entry.fileOffset, entry.block_count * startPacket.block_size)) member
    simp only
    rw [replaced.readAt _ _ (clear _ (List.mem_append_right _ window))]

/-- The fields of a packet that sets START parameters. -/
theorem startOf_some {packet : Packet} {startPacket : StartPacket}
    (sets : startOf packet = some startPacket) :
    28 ≤ packet.body.length ∧ startPacket.block_size = uint64At packet.body 16 := by
  rw [startOf, readStart_eq] at sets
  split_ifs at sets with kind long
  · obtain rfl := Option.some.inj sets
    exact ⟨long, rfl⟩
  · cases sets

/-- The fields of a packet that sets matrix parameters. -/
theorem matrixOf_some {packet : Packet} {matrix : MatrixPacket}
    (sets : matrixOf packet = some matrix) :
    24 ≤ packet.body.length ∧ matrix.first_input = uint64At packet.body 0 := by
  rw [matrixOf, readMatrix_eq] at sets
  by_cases long : 24 ≤ packet.body.length
  · rw [if_pos long] at sets
    by_cases kind : packet.type = .CAUCHY ∨ packet.type = .MATRIX
    · rw [if_pos kind] at sets
      obtain rfl := Option.some.inj sets
      exact ⟨long, rfl⟩
    · rw [if_neg kind] at sets
      cases sets
  · rw [if_neg long, Except.toOption, ite_self] at sets
    cases sets

/-- The parameters that a replacement sets, when its packets can be read. -/
theorem Replaced.parameters_set (replaced : Replaced blake3 file other)
    (read : (packetsOf file).all (readable blake3) = true) :
    (∀ start, lastPacket Packet.setsStart (packetsOf file) = some start →
        ∃ startPacket, startOf (start.rebodied other) = some startPacket) ∧
      ∀ matrix, lastPacket Packet.setsMatrix (packetsOf file) = some matrix →
        ∃ parameters, matrixOf (matrix.rebodied other) = some parameters := by
  have readThere (packet : Packet) (member : packet ∈ packetsOf file) :
      readable blake3 (packet.rebodied other) = true := by
    rw [replaced.readable_rebodied member]
    exact List.all_eq_true.mp read packet member
  constructor
  · intro start last
    obtain ⟨member, sets⟩ := mem_of_lastPacket last
    exact Option.isSome_iff_exists.mp ((startOf_isSome (readThere start member)).trans sets)
  · intro matrix last
    obtain ⟨member, sets⟩ := mem_of_lastPacket last
    exact Option.isSome_iff_exists.mp ((matrixOf_isSome (readThere matrix member)).trans sets)

/-- Both passes over a replacement of a file that gets to the second pass. -/
theorem Replaced.readArchive_decoded (replaced : Replaced blake3 file other) (backend : Backend)
    (read : (packetsOf file).all (readable blake3) = true) (complete : leftoverOf file = [])
    {start matrix : Packet}
    (startLast : lastPacket Packet.setsStart (packetsOf file) = some start)
    (matrixLast : lastPacket Packet.setsMatrix (packetsOf file) = some matrix) :
    ∃ startPacket parameters, startOf (start.rebodied other) = some startPacket ∧
      matrixOf (matrix.rebodied other) = some parameters ∧
      Par3.readArchive blake3 backend other =
        .ok (Par3.decoded blake3 backend other startPacket parameters) := by
  obtain ⟨startPacket, startSet⟩ := (replaced.parameters_set read).1 start startLast
  obtain ⟨parameters, matrixSet⟩ := (replaced.parameters_set read).2 matrix matrixLast
  refine ⟨startPacket, parameters, startSet, matrixSet, ?_⟩
  rw [replaced.readArchive, read, complete, startLast, matrixLast, Option.bind_some,
    Option.bind_some, startSet, matrixSet]
  rfl

/-- Files that are decoded from trusted packets do not depend on others. -/
theorem determinedByTrusted_of_decodesTrusted (backend : Backend)
    (trusted : decodesTrusted blake3 file) : determinedByTrusted blake3 backend file := by
  intro other replaced
  suffices same : Par3.readArchive blake3 backend other = Par3.readArchive blake3 backend file by
    exact ⟨same, by rw [par3_repair, par3_repair, same]⟩
  have itself := Replaced.refl blake3 file
  cases read : (packetsOf file).all (readable blake3) with
  | false => rw [replaced.readArchive, itself.readArchive, read, if_pos rfl, if_pos rfl]
  | true =>
    by_cases complete : leftoverOf file = []
    · cases start : lastPacket Packet.setsStart (packetsOf file) with
      | none =>
        rw [replaced.readArchive, itself.readArchive, start]
        rfl
      | some startPacket =>
        cases matrix : lastPacket Packet.setsMatrix (packetsOf file) with
        | none =>
          obtain ⟨_, there⟩ := (replaced.parameters_set read).1 _ start
          obtain ⟨_, here⟩ := (itself.parameters_set read).1 _ start
          rw [replaced.readArchive, itself.readArchive, start, matrix, Option.bind_some,
            Option.bind_some, there, here]
          rfl
        | some matrixPacket =>
          obtain ⟨startTrusted, matrixTrusted, clear⟩ := trusted read complete _ _ start matrix
          have startMember := (mem_of_lastPacket start).1
          have matrixMember := (mem_of_lastPacket matrix).1
          obtain ⟨_, _, startThere, matrixThere, there⟩ :=
            replaced.readArchive_decoded backend read complete start matrix
          obtain ⟨fields, parameters, startHere, matrixHere, here⟩ :=
            itself.readArchive_decoded backend read complete start matrix
          rw [replaced.trusted startMember startTrusted] at startThere
          rw [replaced.trusted matrixMember matrixTrusted] at matrixThere
          rw [itself.trusted startMember startTrusted] at startHere
          rw [itself.trusted matrixMember matrixTrusted] at matrixHere
          obtain rfl := Option.some.inj (startThere.symm.trans startHere)
          obtain rfl := Option.some.inj (matrixThere.symm.trans matrixHere)
          rw [there, here, replaced.decoded]
          rwa [(startOf_some startHere).2]
    · have cutOff := List.length_pos_iff.mpr complete
      rw [replaced.readArchive, itself.readArchive, if_pos cutOff, if_pos cutOff]

/-! ## Changing one byte -/

/-- Some other byte leaves a packet that is not trusted without trust. -/
theorem exists_distrusted_byte (distinct : collisionFree blake3 file) {packet : Packet}
    (member : packet ∈ packetsOf file) (rejected : packet.trusted blake3 = false) (index : ℕ)
    (inside : index < packet.body.length) :
    ∃ byte, packet.body[index]? ≠ some byte ∧
      ({ packet with body := packet.body.set index byte } : Packet).trusted blake3 = false := by
  have present : packet.body[index]? = some packet.body[index] := List.getElem?_eq_getElem inside
  have next (step : UInt8) (moves : step ≠ 0) :
      packet.body[index]? ≠ some (packet.body[index] + step) := by
    rw [present, ne_eq, Option.some.injEq]
    exact fun same => moves (by grind)
  by_cases first :
      ({ packet with body := packet.body.set index (packet.body[index] + 1) } : Packet).trusted
        blake3 = false
  · exact ⟨_, next 1 (by decide), first⟩
  · refine ⟨_, next 2 (by decide), ?_⟩
    by_contra second
    rw [Bool.not_eq_false, Packet.trusted, Bool.and_eq_true] at first second
    have known : packet.known = true := first.1
    rw [Packet.trusted, known, Bool.true_and, Packet.valid, validatePacketChecksum] at rejected
    have stored : (slice packet.header 8 24).all (· == 0) = false := by
      by_contra zero
      rw [Bool.not_eq_false] at zero
      simp only [zero, if_true] at rejected
      cases rejected
    have accepts (body : Buffer) (valid : ({ packet with body } : Packet).valid blake3 = true) :
        slice packet.header 8 24 = (blake3 (packet.header.drop 24 ++ body)).toList.take 16 := by
      rw [Packet.valid, validatePacketChecksum] at valid
      simp only [stored, Bool.false_eq_true, if_false, beq_iff_eq] at valid
      exact valid
    refine distinct packet member (by rwa [Packet.trusted, known, Bool.true_and]) index inside
      (packet.body[index] + 1) (packet.body[index] + 2) ?_
      ((accepts _ first.2).symm.trans (accepts _ second.2))
    grind

/-- A file with another byte in the body of a packet that is not trusted, and that the byte
does not make trusted. -/
theorem replaced_set {packet : Packet} (member : packet ∈ packetsOf file)
    (rejected : packet.trusted blake3 = false) (index : ℕ) (inside : index < packet.body.length)
    (byte : UInt8)
    (stays : ({ packet with body := packet.body.set index byte } : Packet).trusted blake3 = false) :
    Replaced blake3 file (file.set (packet.absBodyOffset + index) byte) ∧
      packet.rebodied (file.set (packet.absBodyOffset + index) byte) =
        { packet with body := packet.body.set index byte } := by
  obtain ⟨itself, length, _⟩ := packetsOf_fields member
  have changed : packet.rebodied (file.set (packet.absBodyOffset + index) byte) =
      { packet with body := packet.body.set index byte } := by
    have body : slice file packet.absBodyOffset (packet.absBodyOffset + packet.bodyLen) =
        packet.body := congrArg Packet.body itself
    rw [Packet.rebodied, slice_set, body]
  refine ⟨⟨List.length_set, ?_, ?_⟩, changed⟩
  · intro position outside
    refine List.getElem?_set_ne fun same => ?_
    exact outside packet member rejected ⟨by omega, by omega⟩
  · intro other otherMember otherRejected
    by_cases same : other = packet
    · rw [same, changed]
      exact stays
    · have apart : other.rebodied (file.set (packet.absBodyOffset + index) byte) =
          other.rebodied file := by
        unfold Packet.rebodied
        congr 1
        refine slice_congr _ _ fun position first last => ?_
        refine List.getElem?_set_ne fun here => same ?_
        have covers : packet.covers position := ⟨by omega, by omega⟩
        exact packetsOf_disjoint otherMember member ⟨first, last⟩ covers
      rw [apart, (packetsOf_fields otherMember).1]
      exact otherRejected

/-- There is such a byte when the hash tells bodies apart. -/
theorem exists_replaced (distinct : collisionFree blake3 file) {packet : Packet}
    (member : packet ∈ packetsOf file) (rejected : packet.trusted blake3 = false) (index : ℕ)
    (inside : index < packet.body.length) :
    ∃ byte, packet.body[index]? ≠ some byte ∧
      Replaced blake3 file (file.set (packet.absBodyOffset + index) byte) ∧
      packet.rebodied (file.set (packet.absBodyOffset + index) byte) =
        { packet with body := packet.body.set index byte } := by
  obtain ⟨byte, different, stays⟩ := exists_distrusted_byte distinct member rejected index inside
  exact ⟨byte, different, replaced_set member rejected index inside byte stays⟩

/-- A read sees another byte inside of it. -/
theorem readAt_set {length start position : ℕ} {byte : UInt8} (first : start ≤ position)
    (last : position < start + length) (inside : position < file.length)
    (different : file[position]? ≠ some byte) :
    readAt (file.set position byte) length start ≠ readAt file length start := by
  intro same
  have entry := congrArg (fun bytes => bytes[position - start]?) same
  have here : start + (position - start) = position := by omega
  simp only [readAt] at entry
  rw [List.getElem?_take_of_lt (by omega), List.getElem?_take_of_lt (by omega), List.getElem?_drop,
    List.getElem?_drop, here, List.getElem?_set_self inside] at entry
  exact different entry.symm

/-- What is copied to the front of a buffer is seen. -/
theorem copyInto_front {target left right : Buffer} (fits : left.length ≤ target.length)
    (length : right.length = left.length) (same : copyInto target left 0 = copyInto target right 0) :
    left = right := by
  rw [copyInto, copyInto, List.take_zero, List.nil_append, List.nil_append, Nat.sub_zero,
    List.take_of_length_le fits, List.take_of_length_le (length.trans_le fits)] at same
  exact (List.append_inj same length.symm).1

/-! ## The converse -/

/-- A file that does not depend on packets without trust reads no window that runs into one. -/
theorem windows_clear (distinct : collisionFree blake3 file)
    (startPacket : StartPacket) (matrix : MatrixPacket)
    (same : ∀ other, Replaced blake3 file other →
      decoded blake3 backend other startPacket matrix =
        decoded blake3 backend file startPacket matrix) :
    ∀ window ∈ windows blake3 file startPacket.block_size, ∀ packet ∈ packetsOf file,
      packet.trusted blake3 = false → ∀ position, window.1 ≤ position →
        position < window.1 + window.2 → ¬ packet.covers position := by
  intro window found packet member rejected position first last covers
  obtain ⟨itself, length, _⟩ := packetsOf_fields member
  obtain ⟨_, _, _, _, _, _, _, _, inside, _⟩ := mem_packetsOf member
  unfold Packet.covers at covers
  have index : position - packet.absBodyOffset < packet.body.length := by omega
  obtain ⟨byte, different, replaced, _⟩ := exists_replaced distinct member rejected _ index
  have place : packet.absBodyOffset + (position - packet.absBodyOffset) = position := by omega
  rw [place] at replaced
  have here : file[position]? ≠ some byte := by
    have body : slice file packet.absBodyOffset (packet.absBodyOffset + packet.bodyLen) =
        packet.body := congrArg Packet.body itself
    have entry : packet.body[position - packet.absBodyOffset]? = file[position]? := by
      rw [← body, slice, List.getElem?_take_of_lt (by omega), List.getElem?_drop, place]
    rwa [← entry]
  have equal := same _ replaced
  rw [decoded, decoded, replaced.recorded_same.1, replaced.recorded_same.2,
    RepairState.mk.injEq] at equal
  obtain ⟨_, _, _, _, dataBlocks, recoveryData⟩ := equal
  rcases List.mem_append.mp found with data | recovery
  · obtain ⟨entry, recorded, rfl⟩ := List.mem_map.mp data
    have block := List.map_inj_left.mp dataBlocks entry (List.mem_mergeSort.mpr recorded)
    exact readAt_set first last (by omega) here (DataBlock.mk.inj block).2
  · obtain ⟨entry, recorded, rfl⟩ := List.mem_map.mp recovery
    have block := List.map_inj_left.mp recoveryData entry recorded
    refine readAt_set first last (by omega) here (copyInto_front ?_ ?_ (RecoveryData.mk.inj block).2.2)
    · simp [readAt, Backend.allocBuffer]
    · simp [readAt]

/-- Repair depends on trusted packets only exactly when it decodes from them alone: another body in
place of a packet that is not trusted would be decoded too. -/
theorem determinedByTrusted_iff (blake3 : Hash) (backend : Backend) (file : Buffer)
    (distinct : collisionFree blake3 file) :
    determinedByTrusted blake3 backend file ↔ decodesTrusted blake3 file := by
  refine ⟨fun determined => ?_, determinedByTrusted_of_decodesTrusted backend⟩
  intro read complete start matrix startLast matrixLast
  have itself := Replaced.refl blake3 file
  have startMember := (mem_of_lastPacket startLast).1
  have matrixMember := (mem_of_lastPacket matrixLast).1
  obtain ⟨startPacket, parameters, startSet, matrixSet, here⟩ :=
    itself.readArchive_decoded backend read complete startLast matrixLast
  rw [(packetsOf_fields startMember).1] at startSet
  rw [(packetsOf_fields matrixMember).1] at matrixSet
  obtain ⟨startLong, blockSize⟩ := startOf_some startSet
  obtain ⟨matrixLong, firstInput⟩ := matrixOf_some matrixSet
  -- Every replacement decodes to the same parameters and the same blocks.
  have same (other : Buffer) (replaced : Replaced blake3 file other) :
      startOf (start.rebodied other) = some startPacket ∧
        matrixOf (matrix.rebodied other) = some parameters ∧
        decoded blake3 backend other startPacket parameters =
          decoded blake3 backend file startPacket parameters := by
    obtain ⟨otherStart, otherParameters, startThere, matrixThere, there⟩ :=
      replaced.readArchive_decoded backend read complete startLast matrixLast
    have equal := (determined other replaced).1
    rw [there, here] at equal
    have states := Except.ok.inj equal
    obtain rfl : otherStart = startPacket := congrArg RepairState.startPacket states
    obtain rfl : otherParameters = parameters := congrArg RepairState.matrix states
    exact ⟨startThere, matrixThere, states⟩
  constructor
  · by_contra rejected
    rw [Bool.not_eq_true] at rejected
    obtain ⟨byte, different, replaced, changed⟩ :=
      exists_replaced distinct startMember rejected 23 (by omega)
    have sets := (startOf_some (same _ replaced).1).2
    rw [changed, blockSize] at sets
    exact uint64At_set_top start.body 16 (by omega) byte different sets.symm
  · by_contra rejected
    rw [Bool.not_eq_true] at rejected
    obtain ⟨byte, different, replaced, changed⟩ :=
      exists_replaced distinct matrixMember rejected 7 (by omega)
    have sets := (matrixOf_some (same _ replaced).2.1).2
    rw [changed, firstInput] at sets
    exact uint64At_set_top matrix.body 0 (by omega) byte different sets.symm
  · rw [← blockSize]
    exact windows_clear distinct startPacket parameters fun other replaced =>
      (same other replaced).2.2

end

/-! ## A packet of an unknown type -/

/-- A packet with a type that is not in the table, and a checksum of zeros. -/
def strayPacket (body : Buffer) : Buffer :=
  PAR3_MAGIC ++ List.replicate 16 0 ++ toLittleEndian 8 (48 + body.length) ++
    List.replicate 8 1 ++ PacketType.ascii "PAR XYZ" ++ [0] ++ body

/-- The matrix packet of one input block and a first recovery index of two. -/
def matrixBody : Buffer := toLittleEndian 8 0 ++ toLittleEndian 8 0 ++ toLittleEndian 8 2

/-- A packet of an unknown type, followed by a matrix packet. -/
def strayFile : Buffer :=
  strayPacket (List.replicate 28 0) ++
    ({ checksum := List.replicate 16 0, inputSetId := List.replicate 8 1, type := .CAUCHY
       body := matrixBody } : RawPacket).bytes

/-- The stray packet as a parser reports it. -/
def strayStart : Packet where
  type := .START
  body := List.replicate 28 0
  bodyLen := 28
  absBodyOffset := 48
  header := (strayPacket (List.replicate 28 0)).take 48

/-- The matrix packet as a parser reports it. -/
def strayMatrix : Packet where
  type := .CAUCHY
  body := matrixBody
  bodyLen := 24
  absBodyOffset := 124
  header := (strayFile.drop 76).take 48

theorem strayFile_packets :
    packetsOf strayFile = [strayStart, strayMatrix] ∧ leftoverOf strayFile = [] := by
  decide +kernel

/-- The block size comes from a packet of an unknown type, whatever the hash. -/
theorem unknown_type_sets_block_size : ¬ ∃ (blake3 : Hash) (backend : Backend),
    determinedByTrusted blake3 backend strayFile := by
  rintro ⟨blake3, backend, determined⟩
  obtain ⟨packets, complete⟩ := strayFile_packets
  have member : strayStart ∈ packetsOf strayFile := by simp [packets]
  have unknown : strayStart.known = false := by decide +kernel
  have distrusted (body : Buffer) : ({ strayStart with body } : Packet).trusted blake3 = false := by
    have known : ({ strayStart with body } : Packet).known = false := unknown
    rw [Packet.trusted, known, Bool.false_and]
  obtain ⟨replaced, changed⟩ := replaced_set member (distrusted strayStart.body) 23 (by decide) 1
    (distrusted _)
  have read : (packetsOf strayFile).all (readable blake3) = true := by
    rw [packets]
    rfl
  have startLast : lastPacket Packet.setsStart (packetsOf strayFile) = some strayStart := by
    rw [packets]
    rfl
  have matrixLast : lastPacket Packet.setsMatrix (packetsOf strayFile) = some strayMatrix := by
    rw [packets]
    rfl
  obtain ⟨_, _, startThere, _, there⟩ :=
    replaced.readArchive_decoded backend read complete startLast matrixLast
  obtain ⟨_, _, startHere, _, here⟩ := (Replaced.refl blake3 strayFile).readArchive_decoded backend
    read complete startLast matrixLast
  have equal := (determined _ replaced).1
  rw [there, here] at equal
  have fields := congrArg RepairState.startPacket (Except.ok.inj equal)
  have sizes := congrArg StartPacket.block_size fields
  simp only [decoded] at sizes
  rw [(startOf_some startThere).2, (startOf_some startHere).2, changed,
    (packetsOf_fields member).1] at sizes
  exact uint64At_set_top strayStart.body 16 (by decide) 1 (by decide) sizes

theorem byteSum_set (before bytes : Buffer) (index : ℕ) (inside : index < bytes.length)
    (byte : UInt8) :
    (before ++ bytes.set index byte).foldr (· + ·) 0 + bytes[index] =
      (before ++ bytes).foldr (· + ·) 0 + byte := by
  induction before with
  | cons first rest ih =>
    simp only [List.cons_append, List.foldr_cons]
    grind
  | nil =>
    simp only [List.nil_append]
    induction bytes generalizing index with
    | nil => exact absurd inside (Nat.not_lt_zero _)
    | cons first rest ih =>
      cases index with
      | zero =>
        simp only [List.set_cons_zero, List.foldr_cons, List.getElem_cons_zero]
        grind
      | succ index =>
        have later := ih index (by simpa using inside)
        simp only [List.set_cons_succ, List.foldr_cons, List.getElem_cons_succ]
        grind

/-- Such a hash tells any two bodies apart that differ in one byte. -/
theorem byteSum_collisionFree (file : Buffer) : collisionFree byteSum file := by
  intro packet _ _ index inside first second different same
  have heads := congrArg (fun bytes => bytes[0]?) same
  have head (bytes : Buffer) : ((byteSum bytes).toList.take 16)[0]? =
      some (bytes.foldr (· + ·) 0) := by
    simp [byteSum]
  simp only [head, Option.some.injEq] at heads
  have left := byteSum_set (packet.header.drop 24) packet.body index inside first
  have right := byteSum_set (packet.header.drop 24) packet.body index inside second
  grind

/-- Parameter packets without a checksum, and a DATA packet with a wrong one. -/
def damagedDataFile : Buffer :=
  packetBytes [
    { checksum := List.replicate 16 0, inputSetId := List.replicate 8 1, type := .START
      body := List.replicate 28 0 },
    { checksum := List.replicate 16 0, inputSetId := List.replicate 8 1, type := .CAUCHY
      body := matrixBody },
    { checksum := List.replicate 16 1, inputSetId := List.replicate 8 1, type := .DATA
      body := List.replicate 16 0 }]

/-- The types of its packets and whether they are trusted. -/
theorem damagedDataFile_packets :
    (packetsOf damagedDataFile).map (fun packet => (packet.type, packet.trusted byteSum)) =
      [(.START, true), (.CAUCHY, true), (.DATA, false)] ∧
      (packetsOf damagedDataFile).filterMap (dataOf byteSum) = [] ∧
      (packetsOf damagedDataFile).filterMap (recoveryOf byteSum) = [] := by
  decide +kernel

/-- Its repair does not depend on the DATA packet. -/
theorem damagedDataFile_determinedByTrusted :
    collisionFree byteSum damagedDataFile ∧
      determinedByTrusted byteSum ⟨false, false, false, fun _ _ => 0⟩ damagedDataFile := by
  have distinct := byteSum_collisionFree damagedDataFile
  refine ⟨distinct, (determinedByTrusted_iff byteSum _ damagedDataFile distinct).mpr ?_⟩
  obtain ⟨verdicts, data, recovery⟩ := damagedDataFile_packets
  intro _ _ start matrix startLast matrixLast
  have trusted (packet : Packet) (member : packet ∈ packetsOf damagedDataFile)
      (kind : packet.type ≠ .DATA) : packet.trusted byteSum = true := by
    have verdict := List.mem_map_of_mem (f := fun packet : Packet =>
      (packet.type, packet.trusted byteSum)) member
    rw [verdicts] at verdict
    simp only [List.mem_cons, Prod.mk.injEq, kind, List.not_mem_nil] at verdict
    tauto
  obtain ⟨startMember, startSets⟩ := mem_of_lastPacket startLast
  obtain ⟨matrixMember, matrixSets⟩ := mem_of_lastPacket matrixLast
  refine ⟨trusted start startMember ?_, trusted matrix matrixMember ?_, ?_⟩
  · intro kind
    simp [Packet.setsStart, kind] at startSets
  · intro kind
    simp [Packet.setsMatrix, kind] at matrixSets
  · intro window found
    rw [windows, data, recovery] at found
    cases found

end Par3
