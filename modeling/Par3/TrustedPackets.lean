import Par3.FirstPass

/-!
# Which packets repair trusts

A packet is trusted when its type is known and its checksum matches. Two files that differ
only in the bodies of packets that are not trusted, in the one as in the other, hold the same
packets at the same places. Repair reads the same blocks from them, but START and matrix
packets set its parameters without being trusted, and a window of a trusted packet may reach
into a body that is not.
-/

namespace Par3

/-- Whether the header names a type of the table. Other packets are read as START packets. -/
def Packet.known (packet : Packet) : Bool := PacketType.known (slice packet.header 40 48)

/-- A packet of a known type whose checksum matches. -/
def Packet.trusted (blake3 : Hash) (packet : Packet) : Bool :=
  packet.known && packet.valid blake3

/-- The packet that stands at the same place in another file. -/
def Packet.rebodied (file : Buffer) (packet : Packet) : Packet :=
  { packet with
    body := slice file packet.absBodyOffset (packet.absBodyOffset + packet.bodyLen) }

/-- A position inside the body of a packet. -/
def Packet.covers (packet : Packet) (position : ℕ) : Prop :=
  packet.absBodyOffset ≤ position ∧ position < packet.absBodyOffset + packet.bodyLen

/-! ## Packets and their places -/

/-- A packet and where the scan has found it. -/
theorem mem_packetsOf {file : Buffer} {packet : Packet} (member : packet ∈ packetsOf file) :
    ∃ offset width content, packet = FramedPacket.at 0 (offset, content) ∧
      packetFraming.decision (file.drop offset) = .frame width content ∧
      packetFraming.Visits file offset ∧ packet.absBodyOffset = offset + 48 ∧
      packet.absBodyOffset + packet.bodyLen = offset + width ∧
      packet.absBodyOffset + packet.bodyLen ≤ file.length ∧
      ∀ visited, packetFraming.Visits file visited →
        packet.absBodyOffset + packet.bodyLen ≤ visited ∨ visited ≤ offset := by
  obtain ⟨frame, found, rfl⟩ := List.mem_map.mp member
  obtain ⟨_, visits, width, verdict⟩ := Resync.Framing.scan_visits file 0 0
    (Resync.Framing.visits_zero file) frame found
  obtain ⟨room, _, _, least, fits, content⟩ := packetDecision_frame verdict
  rw [List.length_drop] at fits room
  have start : (FramedPacket.at 0 frame).absBodyOffset = frame.1 + 48 := by
    rw [FramedPacket.at, Nat.zero_add]
  have behind : (FramedPacket.at 0 frame).absBodyOffset + (FramedPacket.at 0 frame).bodyLen =
      frame.1 + width := by
    rw [start, FramedPacket.at, content]
    change frame.1 + 48 + (width - 48) = _
    omega
  refine ⟨frame.1, width, frame.2, rfl, verdict, visits, start, behind, by omega, ?_⟩
  intro visited others
  obtain ⟨otherWidth, decided, apart⟩ := others.outside frame found
  rw [verdict] at decided
  obtain ⟨rfl, _⟩ := Resync.Decision.frame.inj decided
  rwa [behind]

/-- The fields of a packet are those that stand in the file. -/
theorem packetsOf_fields {file : Buffer} {packet : Packet} (member : packet ∈ packetsOf file) :
    packet.rebodied file = packet ∧ packet.body.length = packet.bodyLen ∧
      packet.type = PacketType.ofHeader (slice packet.header 40 48) := by
  obtain ⟨offset, width, content, rfl, verdict, _, start, behind, inside, _⟩ := mem_packetsOf member
  obtain ⟨_, _, _, least, fits, rfl⟩ := packetDecision_frame verdict
  rw [List.length_drop] at fits
  refine ⟨?_, ?_, ?_⟩
  · have body : slice (file.drop offset) 48 width =
        slice file (0 + offset + 48) (0 + offset + 48 + (width - 48)) := by
      rw [slice_drop]
      congr 1 <;> omega
    rw [Packet.rebodied, FramedPacket.at, body]
  · change (slice (file.drop offset) 48 width).length = width - 48
    exact slice_length _ _ _ (by rw [List.length_drop]; omega)
  · change PacketType.ofHeader (slice (file.drop offset) 40 48) =
      PacketType.ofHeader (slice (slice (file.drop offset) 0 48) 40 48)
    rw [slice, slice, slice, List.drop_take, List.take_take, List.drop_zero]
    rfl

/-- Two packets of a file are the same or have disjoint bodies. -/
theorem packetsOf_disjoint {file : Buffer} {first second : Packet} (left : first ∈ packetsOf file)
    (right : second ∈ packetsOf file) {position : ℕ} (inFirst : first.covers position)
    (inSecond : second.covers position) : first = second := by
  obtain ⟨offset, width, content, rfl, verdict, visits, start, _, _, apart⟩ := mem_packetsOf left
  obtain ⟨other, otherWidth, otherContent, rfl, otherVerdict, otherVisits, otherStart, _, _,
    otherApart⟩ := mem_packetsOf right
  unfold Packet.covers at inFirst inSecond
  have before := apart other otherVisits
  have after := otherApart offset visits
  obtain rfl : offset = other := by omega
  rw [verdict] at otherVerdict
  obtain ⟨_, rfl⟩ := Resync.Decision.frame.inj otherVerdict
  rfl

/-- The decision at a position depends on the header and, for the body, on its own bytes. -/
theorem packetDecision_congr {left right : Buffer} (length : right.length = left.length)
    (header : right.take 48 = left.take 48) :
    packetDecision right = (packetDecision left).map fun content =>
      { content with body := slice right 48 (48 + content.bodyLen) } := by
  have fields (start stop : ℕ) (inside : stop ≤ 48) :
      slice right start stop = slice left start stop := by
    refine slice_congr start stop fun position _ before => ?_
    have entry := congrArg (fun bytes => bytes[position]?) header
    simpa [List.getElem?_take_of_lt (show position < 48 by omega)] using entry
  have width : uint64At right 24 = uint64At left 24 := by
    rw [uint64At, uint64At, fields 24 28 (by omega), fields 28 32 (by omega)]
  unfold packetDecision
  rw [length, fields 0 8 (by omega), width, fields 40 48 (by omega), fields 0 48 (by omega)]
  split_ifs with short magic cut
  · rfl
  · rfl
  · rfl
  · have whole : 48 + (uint64At left 24 - 48) = uint64At left 24 := by omega
    simp only [Resync.Decision.map, whole]

/-! ## Files that differ in bodies that are not trusted -/

/-- The second file arises from the first by other bytes in the bodies of packets that are
not trusted, and none of these packets becomes trusted. -/
structure Replaced (blake3 : Hash) (file other : Buffer) : Prop where
  length : other.length = file.length
  outside : ∀ position, (∀ packet ∈ packetsOf file, packet.trusted blake3 = false →
    ¬ packet.covers position) → other[position]? = file[position]?
  rejected : ∀ packet ∈ packetsOf file, packet.trusted blake3 = false →
    (packet.rebodied other).trusted blake3 = false

section Replaced

variable {blake3 : Hash} {file other : Buffer}

/-- The packets of the second file are those of the first at the same places. -/
theorem Replaced.packets (replaced : Replaced blake3 file other) :
    packetsOf other = (packetsOf file).map (Packet.rebodied other) ∧
      (leftoverOf other).length = (leftoverOf file).length := by
  have similar (offset : ℕ) (visits : packetFraming.Visits file offset) :
      packetFraming.decision (other.drop offset) =
        (packetFraming.decision (file.drop offset)).map fun content => { content with
          body := slice other (offset + 48) (offset + 48 + content.bodyLen) } := by
    have header : (other.drop offset).take 48 = (file.drop offset).take 48 := by
      have same := @slice_congr other file offset (offset + 48) fun position first last => by
        refine replaced.outside position fun packet member _ covers => ?_
        obtain ⟨_, _, _, _, _, _, _, _, _, apart⟩ := mem_packetsOf member
        have side := apart offset visits
        unfold Packet.covers at covers
        omega
      rwa [slice, slice, Nat.add_sub_cancel_left] at same
    have decided := packetDecision_congr (by rw [List.length_drop, List.length_drop, replaced.length])
      header
    have bodies (count : ℕ) : slice (other.drop offset) 48 (48 + count) =
        slice other (offset + 48) (offset + 48 + count) := by
      rw [slice_drop, Nat.add_assoc]
    simp only [bodies] at decided
    exact decided
  have scanned := @Resync.Framing.scan_similar _ _ packetFraming file other
    (fun offset content => { content with
      body := slice other (offset + 48) (offset + 48 + content.bodyLen) })
    similar 0 0 (Resync.Framing.visits_zero file)
  constructor
  · rw [packetsOf, packetsOf, Resync.Framing.received, Resync.Framing.received, scanned,
      List.map_map, List.map_map]
    refine List.map_congr_left fun frame _ => ?_
    simp only [Function.comp_apply, FramedPacket.at, Packet.rebodied, Nat.zero_add]
  · rw [leftoverOf, leftoverOf, Resync.Framing.received, Resync.Framing.received, scanned,
      List.length_drop, List.length_drop, replaced.length]

/-- A file is a replacement of itself. -/
theorem Replaced.refl (blake3 : Hash) (file : Buffer) : Replaced blake3 file file where
  length := rfl
  outside _ _ := rfl
  rejected packet member rejected := by rwa [(packetsOf_fields member).1]

/-- A trusted packet stays as it is. -/
theorem Replaced.trusted (replaced : Replaced blake3 file other) {packet : Packet}
    (member : packet ∈ packetsOf file) (trusted : packet.trusted blake3 = true) :
    packet.rebodied other = packet := by
  have body : slice other packet.absBodyOffset (packet.absBodyOffset + packet.bodyLen) =
      slice file packet.absBodyOffset (packet.absBodyOffset + packet.bodyLen) := by
    refine slice_congr _ _ fun position first last => ?_
    refine replaced.outside position fun apart distrusted rejected covers => ?_
    have same := packetsOf_disjoint member distrusted ⟨first, last⟩ covers
    rw [← same, trusted] at rejected
    cases rejected
  have fields := (packetsOf_fields member).1
  rw [Packet.rebodied, body]
  exact fields

/-- No verdict changes. -/
theorem Replaced.trusted_rebodied (replaced : Replaced blake3 file other) {packet : Packet}
    (member : packet ∈ packetsOf file) :
    (packet.rebodied other).trusted blake3 = packet.trusted blake3 := by
  cases verdict : packet.trusted blake3 with
  | true => rw [replaced.trusted member verdict, verdict]
  | false => exact replaced.rejected packet member verdict

theorem Replaced.body_length (replaced : Replaced blake3 file other) {packet : Packet}
    (member : packet ∈ packetsOf file) :
    (packet.rebodied other).body.length = packet.body.length := by
  obtain ⟨_, _, _, _, _, _, _, _, inside, _⟩ := mem_packetsOf member
  rw [(packetsOf_fields member).2.1]
  change (slice other _ _).length = _
  rw [slice_length _ _ _ (by rwa [replaced.length]), Nat.add_sub_cancel_left]

/-- Types other than START are only read off known type codes. -/
theorem known_of_type {packet : Packet} (member : packet ∈ packetsOf file)
    (kind : packet.type ≠ .START) : packet.known = true := by
  have type := (packetsOf_fields member).2.2
  rw [Packet.known, PacketType.known, List.any_eq_true]
  cases found : PacketType.table.find? fun type =>
      type.code == PacketType.decodeAscii (slice packet.header 40 48) with
  | none =>
    rw [type, PacketType.ofHeader, found] at kind
    exact absurd rfl kind
  | some type =>
    have matches_code := List.find?_some found
    exact ⟨type, List.mem_of_find?_eq_some found, matches_code⟩

/-- The checksum verdict of a packet that is not a START packet stays, and a packet whose
checksum matches stays with it. -/
theorem Replaced.valid (replaced : Replaced blake3 file other) {packet : Packet}
    (member : packet ∈ packetsOf file) (kind : packet.type ≠ .START) :
    (packet.rebodied other).valid blake3 = packet.valid blake3 ∧
      (packet.valid blake3 = true → packet.rebodied other = packet) := by
  have known := known_of_type member kind
  have verdict := replaced.trusted_rebodied member
  have header : (packet.rebodied other).known = packet.known := rfl
  rw [Packet.trusted, Packet.trusted, header, known, Bool.true_and, Bool.true_and] at verdict
  refine ⟨verdict, fun valid => replaced.trusted member ?_⟩
  rw [Packet.trusted, known, valid, Bool.and_self]

/-- The same packets can be read. -/
theorem Replaced.readable_rebodied (replaced : Replaced blake3 file other) {packet : Packet}
    (member : packet ∈ packetsOf file) :
    readable blake3 (packet.rebodied other) = readable blake3 packet := by
  have length := replaced.body_length member
  have type : (packet.rebodied other).type = packet.type := rfl
  have verdict := fun kind => (replaced.valid member kind).1
  unfold Packet.valid at verdict
  unfold readable
  rw [type, length]
  cases kind : packet.type <;> simp only [kind, ne_eq, reduceCtorEq, not_false_eq_true,
    forall_const] at verdict ⊢ <;> rw [verdict]

/-- What is recorded of packets of a type whose checksum matches stays. -/
theorem Replaced.gated {α : Type*} (replaced : Replaced blake3 file other) {packet : Packet}
    (member : packet ∈ packetsOf file) {kind : PacketType} (gated : kind ≠ .START)
    (record : Packet → α) :
    (if (packet.rebodied other).type = kind ∧ (packet.rebodied other).valid blake3 = true then
        some (record (packet.rebodied other)) else none) =
      if packet.type = kind ∧ packet.valid blake3 = true then some (record packet) else none := by
  have type : (packet.rebodied other).type = packet.type := rfl
  by_cases this : packet.type = kind
  · obtain ⟨verdict, same⟩ := replaced.valid member (by rwa [this])
    by_cases valid : packet.valid blake3 = true
    · rw [same valid]
    · rw [type, verdict, if_neg fun both => valid both.2]
      exact (if_neg fun both => valid both.2).symm
  · rw [type, if_neg fun both => this both.1, if_neg fun both => this both.1]

/-- The same packets are recorded, at the same places. -/
theorem Replaced.recorded_same (replaced : Replaced blake3 file other) :
    (packetsOf other).filterMap (dataOf blake3) = (packetsOf file).filterMap (dataOf blake3) ∧
      (packetsOf other).filterMap (recoveryOf blake3) =
        (packetsOf file).filterMap (recoveryOf blake3) := by
  rw [replaced.packets.1, List.filterMap_map, List.filterMap_map]
  constructor
  · refine List.filterMap_congr fun packet member => ?_
    have gated : PacketType.DATA ≠ .START := by decide
    exact replaced.gated member gated
      fun packet => (⟨uint64At packet.body 0, packet.absBodyOffset + 8⟩ : DataOffset)
  · refine List.filterMap_congr fun packet member => ?_
    have gated : PacketType.RECOVERY ≠ .START := by decide
    exact replaced.gated member gated fun packet =>
      (⟨uint64At packet.body 0, uint64At packet.body 8, packet.absBodyOffset + 16⟩ : RecoveryOffset)

/-! ## The parameter packets -/

/-- The last packet of a kind. -/
def lastPacket (kind : Packet → Bool) (packets : List Packet) : Option Packet :=
  packets.reverse.find? kind

/-- Whether repair reads START fields from the packet. -/
def Packet.setsStart (packet : Packet) : Bool := packet.type == .START

/-- Whether repair reads matrix fields from the packet. -/
def Packet.setsMatrix (packet : Packet) : Bool :=
  packet.type == .CAUCHY || packet.type == .MATRIX

/-- The value that is set last is that of the last packet of its kind. -/
theorem lastOf_eq_lastPacket {α : Type*} (set : Packet → Option α) (kind : Packet → Bool)
    (packets : List Packet) (agree : ∀ packet ∈ packets, (set packet).isSome = kind packet)
    (before : Option α) :
    lastOf set packets before = ((lastPacket kind packets).bind set).or before := by
  induction packets generalizing before with
  | nil => rfl
  | cons packet later ih =>
    have here := agree packet (by simp)
    rw [lastOf_cons, ih fun other member => agree other (by simp [member])]
    rw [lastPacket, lastPacket, List.reverse_cons, List.find?_append]
    cases found : later.reverse.find? kind with
    | some last =>
      have member := List.mem_reverse.mp (List.mem_of_find?_eq_some found)
      have sets := agree last (by simp [member])
      rw [List.find?_some found] at sets
      obtain ⟨value, valued⟩ := Option.isSome_iff_exists.mp sets
      simp [valued]
    | none =>
      cases kindHere : kind packet with
      | true => simp [kindHere]
      | false =>
        rw [kindHere, Option.isSome_eq_false_iff, Option.isNone_iff_eq_none] at here
        simp [kindHere, here]

theorem mem_of_lastPacket {kind : Packet → Bool} {packets : List Packet} {packet : Packet}
    (last : lastPacket kind packets = some packet) : packet ∈ packets ∧ kind packet = true :=
  ⟨List.mem_reverse.mp (List.mem_of_find?_eq_some last), List.find?_some last⟩

/-- A packet that can be read sets the parameters of its kind. -/
theorem startOf_isSome {packet : Packet} (read : readable blake3 packet = true) :
    (startOf packet).isSome = packet.setsStart := by
  unfold startOf Packet.setsStart
  by_cases kind : packet.type = .START
  · rw [readable, kind] at read
    rw [if_pos kind, readStart_eq, if_pos (of_decide_eq_true read), kind]
    rfl
  · rw [if_neg kind, beq_eq_false_iff_ne.mpr kind]
    rfl

theorem matrixOf_isSome {packet : Packet} (read : readable blake3 packet = true) :
    (matrixOf packet).isSome = packet.setsMatrix := by
  unfold matrixOf Packet.setsMatrix
  by_cases kind : packet.type = .CAUCHY ∨ packet.type = .MATRIX
  · have long : 24 ≤ packet.body.length := by
      rcases kind with kind | kind <;> · rw [readable, kind] at read; exact of_decide_eq_true read
    rw [if_pos kind, readMatrix_eq, if_pos long]
    rcases kind with kind | kind <;> simp [kind, Except.toOption]
  · obtain ⟨cauchy, matrix⟩ := not_or.mp kind
    rw [if_neg kind, beq_eq_false_iff_ne.mpr cauchy, beq_eq_false_iff_ne.mpr matrix]
    rfl

/-- The parameters that are read from the second file. -/
theorem Replaced.parameters (replaced : Replaced blake3 file other)
    (read : (packetsOf file).all (readable blake3) = true) :
    lastOf startOf (packetsOf other) none =
        (lastPacket Packet.setsStart (packetsOf file)).bind (startOf <| ·.rebodied other) ∧
      lastOf matrixOf (packetsOf other) none =
        (lastPacket Packet.setsMatrix (packetsOf file)).bind (matrixOf <| ·.rebodied other) := by
  have readThere : ∀ packet ∈ packetsOf other, readable blake3 packet = true := by
    rw [replaced.packets.1, List.forall_mem_map]
    intro packet member
    rw [replaced.readable_rebodied member]
    exact List.all_eq_true.mp read packet member
  have moved (kind : Packet → Bool) (stays : ∀ packet : Packet, kind (packet.rebodied other) = kind packet) :
      lastPacket kind (packetsOf other) =
        (lastPacket kind (packetsOf file)).map (Packet.rebodied other) := by
    rw [replaced.packets.1, lastPacket, lastPacket, ← List.map_reverse, List.find?_map]
    congr 2
    exact funext stays
  constructor
  · rw [lastOf_eq_lastPacket _ Packet.setsStart _ fun packet member =>
      startOf_isSome (readThere packet member), moved _ fun _ => rfl, Option.or_none,
      Option.bind_map]
    rfl
  · rw [lastOf_eq_lastPacket _ Packet.setsMatrix _ fun packet member =>
      matrixOf_isSome (readThere packet member), moved _ fun _ => rfl, Option.or_none,
      Option.bind_map]
    rfl

end Replaced

end Par3
