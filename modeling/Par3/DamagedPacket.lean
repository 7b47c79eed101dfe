import Par3.ParseBuffer

/-!
# Damage to one packet

The bytes of one packet of an archive are replaced by any others, of any number. The packets
before it are found as ever. Those behind it are found exactly when a scan of the new bytes
stops where they end: it goes from position to position over gaps of eight bytes and over
whatever has the shape of a packet. Where it gets stuck at a length field, or out of step by
a number of bytes that eight does not divide, all packets behind are lost.
-/

namespace Par3

/-! ## What the first pass reports -/

/-- A callback that throws at one packet. -/
def throwAt (packet : Packet) (_ : Unit) (seen : Packet) : Except Unit Unit :=
  if seen = packet then .error () else .ok ()

/-- The first pass over the chunks calls its callback with the packet. Whatever the parse
ends with, a callback that throws at the packet is then seen to throw. -/
def reports (chunks : List Buffer) (packet : Packet) : Prop :=
  par3_parse_stream_pass1 CHUNK_SIZE (throwAt packet) chunks () = .error (.thrown ())

theorem foldlM_throwAt (packet : Packet) (packets : List Packet) :
    packets.foldlM (throwAt packet) () = if packet ∈ packets then .error () else .ok () := by
  induction packets with
  | nil => rfl
  | cons first later ih =>
    rw [List.foldlM_cons, throwAt]
    by_cases here : first = packet
    · rw [if_pos here, if_pos (by simp [here])]
      rfl
    · have elsewhere : packet ∈ first :: later ↔ packet ∈ later := by
        simp [show packet ≠ first from fun same => here same.symm]
      rw [if_neg here, if_congr elsewhere rfl rfl]
      exact ih

/-- The packets that are reported are those of the file. -/
theorem reports_iff (chunks : List Buffer) (nonempty : ∀ chunk ∈ chunks, chunk ≠ [])
    (bounded : ∀ chunk ∈ chunks, chunk.length ≤ CHUNK_SIZE) (packet : Packet) :
    reports chunks packet ↔ packet ∈ packetsOf chunks.flatten := by
  have parsed := readChunk_packets (throwAt packet) chunks nonempty bounded ()
  have ran := foldlM_throwAt packet (packetsOf chunks.flatten)
  rw [reports, par3_parse_stream_pass1, parsed]
  by_cases member : packet ∈ packetsOf chunks.flatten
  · rw [if_pos member] at ran
    rw [ran]
    exact iff_of_true rfl member
  · rw [if_neg member] at ran
    rw [ran]
    refine iff_of_false (fun thrown => ?_) member
    by_cases cutOff : 0 < (leftoverOf chunks.flatten).length
    · simp only [if_pos cutOff] at thrown
      cases thrown
    · simp only [if_neg cutOff] at thrown
      cases thrown

/-! ## A packet replaced by other bytes -/

/-- The archive with other bytes in the place of one packet. -/
def damagedFile (before after : List RawPacket) (middle : Buffer) : Buffer :=
  packetBytes before ++ middle ++ packetBytes after

/-- Every other packet, where it stands now. -/
def otherPackets (before after : List RawPacket) (middle : Buffer) : List Packet :=
  reported 0 before ++ reported ((packetBytes before).length + middle.length) after

/-- The first pass over the damaged archive reports every other packet at its place, for any
cutting into chunks. -/
def costsOnePacket (before after : List RawPacket) (middle : Buffer) : Prop :=
  ∀ chunks : List Buffer, (∀ chunk ∈ chunks, chunk ≠ []) →
    (∀ chunk ∈ chunks, chunk.length ≤ CHUNK_SIZE) →
    chunks.flatten = damagedFile before after middle →
    ∀ packet ∈ otherPackets before after middle, reports chunks packet

theorem costsOnePacket_iff_packets (before after : List RawPacket) (middle : Buffer) :
    costsOnePacket before after middle ↔ ∀ packet ∈ otherPackets before after middle,
      packet ∈ packetsOf (damagedFile before after middle) := by
  constructor
  · intro costs packet member
    obtain ⟨whole, pieces⟩ := cut_spec CHUNK_SIZE (by decide) (damagedFile before after middle)
    have found := costs _ (fun piece member => (pieces piece member).1)
      (fun piece member => (pieces piece member).2) whole packet member
    rwa [reports_iff _ (fun piece member => (pieces piece member).1)
      (fun piece member => (pieces piece member).2), whole] at found
  · intro found chunks nonempty bounded whole packet member
    rw [reports_iff chunks nonempty bounded, whole]
    exact found packet member

section

variable {before after : List RawPacket} (middle : Buffer)

/-- A scan steps over well-formed packets. -/
theorem walkable_packetBytes {packets : List RawPacket}
    (formed : ∀ packet ∈ packets, packet.WellFormed) : Walkable (packetBytes packets) := by
  induction packets with
  | nil => exact .nil
  | cons packet later ih =>
    have verdict := packetDecision_packet (formed packet (by simp)) []
    have shaped := PacketShaped.of_decision verdict
    rw [List.append_nil, List.take_length] at shaped
    exact .packet _ _ shaped (ih fun other member => formed other (by simp [member]))

/-- The packets in front of the damage are found. -/
theorem before_found (formed : ∀ packet ∈ before, packet.WellFormed) (packet : Packet)
    (member : packet ∈ reported 0 before) :
    packet ∈ packetsOf (damagedFile before after middle) := by
  obtain ⟨found, complete⟩ := packetsOf_packetBytes before formed
  have grown := packetFraming.receive_received (packetBytes before) (middle ++ packetBytes after)
  rw [packetsOf, damagedFile, List.append_assoc, ← grown, Resync.Framing.receive, List.map_append]
  refine List.mem_append_left _ ?_
  rw [← found] at member
  exact member

/-- Where a scan comes to the end of the damage, it finds the packets behind it. -/
theorem after_found (formed : ∀ packet ∈ after, packet.WellFormed)
    (reaches : packetFraming.Reaches (damagedFile before after middle) 0
      ((packetBytes before).length + middle.length)) (packet : Packet)
    (member : packet ∈ reported ((packetBytes before).length + middle.length) after) :
    packet ∈ packetsOf (damagedFile before after middle) := by
  have behind := scan_packets (packetBytes before ++ middle) after formed
  obtain ⟨earlier, last, frames⟩ := reaches.frames 0
  rw [List.length_append] at behind
  have same : (packetFraming.scan (damagedFile before after middle)
      ((packetBytes before).length + middle.length) last).1 =
        placed ((packetBytes before).length + middle.length) after := by
    rw [damagedFile, Resync.Framing.scan_frames_marker _ _ last
      ((packetBytes before).length + middle.length), behind]
  rw [packetsOf, Resync.Framing.received, frames, List.map_append, same]
  exact List.mem_append_right _ member

/-- A packet behind the damage that is found stands where a scan comes by. -/
theorem reaches_of_found {packet : Packet}
    (found : packet ∈ packetsOf (damagedFile before after middle)) {offset : ℕ}
    (place : packet.absBodyOffset = offset + 48) :
    packetFraming.Reaches (damagedFile before after middle) 0 offset := by
  obtain ⟨frame, member, rfl⟩ := List.mem_map.mp found
  rw [FramedPacket.at, Nat.zero_add] at place
  have here : frame.1 = offset := by
    simp only at place
    omega
  rw [← here]
  exact (packetFraming.scan_reaches _ 0 0 frame member).1

/-- A scan comes to the damage. -/
theorem reaches_damage (formed : ∀ packet ∈ before, packet.WellFormed)
    (room : 48 ≤ (middle ++ packetBytes after).length) :
    packetFraming.Reaches (damagedFile before after middle) 0 (packetBytes before).length := by
  have walked := (walkable_packetBytes formed).reaches [] (middle ++ packetBytes after) room
  rwa [List.nil_append, List.length_nil, Nat.zero_add, ← List.append_assoc] at walked

end

/-- Damage costs one packet exactly when the packet was the last one, or when the new bytes
are gaps of eight bytes and packets. -/
theorem costsOnePacket_iff (before after : List RawPacket) (middle : Buffer)
    (formedBefore : ∀ packet ∈ before, packet.WellFormed)
    (formedAfter : ∀ packet ∈ after, packet.WellFormed) :
    costsOnePacket before after middle ↔ after = [] ∨ Walkable middle := by
  rw [costsOnePacket_iff_packets]
  cases after with
  | nil =>
    refine iff_of_true (fun packet member => ?_) (.inl rfl)
    rw [otherPackets, reported_nil, List.append_nil] at member
    exact before_found middle formedBefore packet member
  | cons first later =>
    have width := RawPacket.bytes_length (formedAfter first (by simp))
    have room : 48 ≤ (packetBytes (first :: later)).length := by
      rw [packetBytes_cons, List.length_append]
      omega
    have start := @reaches_damage before (first :: later) middle formedBefore
      (by rw [List.length_append]; omega)
    constructor
    · intro found
      right
      have firstFound := found _ (List.mem_append_right _ (by
        rw [reported_cons]
        exact List.mem_cons_self))
      have target := reaches_of_found middle firstFound rfl
      have across := start.linear target (by omega)
      have walked := Walkable.of_reaches across (by
        rw [damagedFile, List.length_append, List.length_append]
        omega)
      have bytes : slice (damagedFile before (first :: later) middle) (packetBytes before).length
          ((packetBytes before).length + middle.length) = middle := by
        rw [damagedFile, slice, List.append_assoc, List.drop_left, Nat.add_sub_cancel_left,
          List.take_left]
      rwa [bytes] at walked
    · rintro (impossible | walkable) packet member
      · cases impossible
      · rcases List.mem_append.mp member with inFront | behind
        · exact before_found middle formedBefore packet inFront
        · have across := walkable.reaches (packetBytes before) _ room
          exact after_found middle formedAfter (start.trans across) packet behind

/-- A header alone, as a packet. -/
def bareStart : RawPacket where
  checksum := List.replicate 16 0
  inputSetId := List.replicate 8 0
  type := .START
  body := []

theorem bareStart_wellFormed : ∀ packet ∈ [bareStart], packet.WellFormed := by
  intro packet member
  obtain rfl := List.mem_singleton.mp member
  exact ⟨rfl, rfl, by decide⟩

/-- Eight other bytes in the place of a packet cost that packet only. -/
theorem gap_costs_one : costsOnePacket [] [bareStart] (List.replicate 8 0) :=
  (costsOnePacket_iff [] [bareStart] _ (by simp) bareStart_wellFormed).mpr
    (.inr (.gap (List.replicate 8 0) [] rfl (by decide +kernel) .nil))

/-- One byte deleted from a packet costs the packet behind it too. -/
theorem deleted_byte_costs_two : ¬ costsOnePacket [] [bareStart] (bareStart.bytes.drop 1) := by
  rw [costsOnePacket_iff_packets]
  decide +kernel

end Par3
