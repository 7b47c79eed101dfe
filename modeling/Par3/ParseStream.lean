import Par3.Packet
import Par3.Foundations.Framing

/-!
# The streaming parsers

Both parsers read the file in chunks, put each chunk behind the bytes that were left over
and look for packets from the start of that buffer. At a position without the magic
sequence they advance by eight bytes; at a packet that is not complete, or whose length
field is below the header size, they stop and keep everything behind the last complete
packet. A read of zero bytes is the end of the file, and an error if bytes are left over.

The callback sees the packets in order and may throw, which ends the parse. The parsers
differ only in the absolute body offset, which the first pass reports and the other does not.
-/

namespace Par3

universe u v
variable {σ : Type u} {ε : Type v}

/-- How a parse fails: an exception thrown by the callback, or bytes left over at the end. -/
inductive ParseError (ε : Type v) where
  | thrown (error : ε)
  | truncated
deriving DecidableEq

/-- The text of the second failure. -/
def truncatedMessage : String := "Truncated PAR3 file: incomplete packet at end"

/-- The inner loop over the accumulated bytes. The result is the callback's state and the
end of the last complete packet. Lengths beyond the buffer stop the loop whether or not
their double rounding was exact. -/
def parseAccumulated (packetCallback : σ → Packet → Except ε σ) (accumBuf : Buffer)
    (accumulatedStart parseOffset lastCompleteEnd : ℕ) (state : σ) : Except ε (σ × ℕ) :=
  if parseOffset + 48 ≤ accumBuf.length then
    if slice accumBuf parseOffset (parseOffset + 8) ≠ PAR3_MAGIC then
      parseAccumulated packetCallback accumBuf accumulatedStart (parseOffset + 8)
        lastCompleteEnd state
    else
      let pktLen := uint64At accumBuf (parseOffset + 24)
      if pktLen < 48 ∨ accumBuf.length < parseOffset + pktLen then
        .ok (state, lastCompleteEnd)
      else
        let packet : Packet :=
          { type := PacketType.ofHeader (slice accumBuf (parseOffset + 40) (parseOffset + 48))
            body := slice accumBuf (parseOffset + 48) (parseOffset + pktLen)
            bodyLen := pktLen - 48
            absBodyOffset := accumulatedStart + parseOffset + 48
            header := slice accumBuf parseOffset (parseOffset + 48) }
        match packetCallback state packet with
        | .error error => .error error
        | .ok state =>
          parseAccumulated packetCallback accumBuf accumulatedStart (parseOffset + pktLen)
            (parseOffset + pktLen) state
  else
    .ok (state, lastCompleteEnd)
termination_by accumBuf.length - parseOffset
decreasing_by all_goals omega

/-- `readChunk`, called for each result of `fs.read`. A list that is used up is the end of
the file, which a read reports by zero bytes. -/
def readChunk (CHUNK_SIZE : ℕ) (packetCallback : σ → Packet → Except ε σ) :
    List Buffer → Buffer → ℕ → σ → Except (ParseError ε) σ
  | [], leftover, _, state => if 0 < leftover.length then .error .truncated else .ok state
  | chunk :: later, leftover, currentPos, state =>
    if chunk.length = 0 then
      if 0 < leftover.length then .error .truncated else .ok state
    else
      let bytes := min chunk.length CHUNK_SIZE
      let accumBuf := leftover ++ chunk.take bytes
      match parseAccumulated packetCallback accumBuf (currentPos - leftover.length) 0 0 state with
      | .error error => .error (.thrown error)
      | .ok (state, lastCompleteEnd) =>
        readChunk CHUNK_SIZE packetCallback later (accumBuf.drop lastCompleteEnd)
          (currentPos + chunk.length) state

/-- Each call reads at most this many bytes. -/
def CHUNK_SIZE : ℕ := 1024 * 1024

/-- The first pass, whose callback also receives absolute body offsets. -/
def par3_parse_stream_pass1 (CHUNK_SIZE : ℕ) (packetCallback : σ → Packet → Except ε σ)
    (chunks : List Buffer) (state : σ) : Except (ParseError ε) σ :=
  readChunk CHUNK_SIZE packetCallback chunks [] 0 state

/-- The plain parser hands over type, body, body length and header. -/
def par3_parse_stream (CHUNK_SIZE : ℕ)
    (packetCallback : σ → PacketType → Buffer → ℕ → Buffer → Except ε σ)
    (chunks : List Buffer) (state : σ) : Except (ParseError ε) σ :=
  readChunk CHUNK_SIZE
    (fun state packet =>
      packetCallback state packet.type packet.body packet.bodyLen packet.header)
    chunks [] 0 state

/-! ## The parser as a framing -/

/-- A packet without its place in the file. -/
structure FramedPacket where
  type : PacketType
  body : Buffer
  bodyLen : ℕ
  header : Buffer

/-- The decision the inner loop takes at its current position. -/
def packetDecision (rest : Buffer) : Resync.Decision FramedPacket :=
  if rest.length < 48 then .wait
  else if slice rest 0 8 ≠ PAR3_MAGIC then .skip 8
  else if uint64At rest 24 < 48 ∨ rest.length < uint64At rest 24 then .wait
  else .frame (uint64At rest 24)
    { type := PacketType.ofHeader (slice rest 40 48)
      body := slice rest 48 (uint64At rest 24)
      bodyLen := uint64At rest 24 - 48
      header := slice rest 0 48 }

theorem packetDecision_skip {rest : Buffer} {width : ℕ}
    (verdict : packetDecision rest = .skip width) :
    48 ≤ rest.length ∧ slice rest 0 8 ≠ PAR3_MAGIC ∧ width = 8 := by
  unfold packetDecision at verdict
  split_ifs at verdict with short magic length
  cases verdict
  exact ⟨by omega, magic, rfl⟩

theorem packetDecision_frame {rest : Buffer} {width : ℕ} {content : FramedPacket}
    (verdict : packetDecision rest = .frame width content) :
    48 ≤ rest.length ∧ slice rest 0 8 = PAR3_MAGIC ∧ width = uint64At rest 24 ∧ 48 ≤ width ∧
      width ≤ rest.length ∧ content = ⟨PacketType.ofHeader (slice rest 40 48),
        slice rest 48 width, width - 48, slice rest 0 48⟩ := by
  unfold packetDecision at verdict
  split_ifs at verdict with short magic length
  cases verdict
  exact ⟨by omega, by simpa using magic, rfl, by omega, by omega, rfl⟩

/-- Packets are found by a resumable framing: a position that is skipped and a packet that
is taken stay so when more bytes arrive. -/
def packetFraming : Resync.Framing UInt8 FramedPacket where
  decision := packetDecision
  skip_bound verdict := by
    obtain ⟨room, _, rfl⟩ := packetDecision_skip verdict
    omega
  frame_bound verdict := by
    obtain ⟨_, _, _, _, _, _⟩ := packetDecision_frame verdict
    omega
  skip_stable {rest width} more verdict := by
    obtain ⟨room, magic, rfl⟩ := packetDecision_skip verdict
    rw [packetDecision, List.length_append, slice_append _ _ _ _ (by omega), if_neg (by omega),
      if_pos magic]
  frame_stable {rest width content} more verdict := by
    obtain ⟨room, magic, rfl, lower, upper, rfl⟩ := packetDecision_frame verdict
    rw [packetDecision, uint64At_append _ _ _ (by omega), List.length_append,
      slice_append _ _ 0 8 (by omega), slice_append _ _ 40 48 (by omega),
      slice_append _ _ 0 48 (by omega), slice_append _ _ 48 _ upper, if_neg (by omega),
      if_neg (by simpa using magic), if_neg (by omega)]

/-- Put a framed packet at its place in the file. -/
def FramedPacket.at (accumulatedStart : ℕ) (found : ℕ × FramedPacket) : Packet :=
  { type := found.2.type
    body := found.2.body
    bodyLen := found.2.bodyLen
    absBodyOffset := accumulatedStart + found.1 + 48
    header := found.2.header }

section InnerLoop

variable {packetCallback : σ → Packet → Except ε σ} {accumBuf : Buffer}
  {accumulatedStart offset last : ℕ} {state : σ}

/-- The loop ends at the end of the buffer, at an incomplete packet and at a length field
below the header size. -/
theorem parseAccumulated_wait (verdict : packetDecision (accumBuf.drop offset) = .wait) :
    parseAccumulated packetCallback accumBuf accumulatedStart offset last state =
      .ok (state, last) := by
  simp only [packetDecision, slice_drop, uint64At_drop, List.length_drop, Nat.add_zero] at verdict
  rw [parseAccumulated]
  by_cases short : accumBuf.length - offset < 48
  · rw [if_neg (by omega)]
  · rw [if_neg short] at verdict
    rw [if_pos (by omega)]
    split_ifs at verdict with magic length
    rw [if_neg magic]
    exact if_pos (by omega)

theorem parseAccumulated_skip {width : ℕ}
    (verdict : packetDecision (accumBuf.drop offset) = .skip width) :
    parseAccumulated packetCallback accumBuf accumulatedStart offset last state =
      parseAccumulated packetCallback accumBuf accumulatedStart (offset + width) last state := by
  obtain ⟨room, magic, rfl⟩ := packetDecision_skip verdict
  rw [List.length_drop] at room
  rw [slice_drop, Nat.add_zero] at magic
  rw [parseAccumulated, if_pos (by omega), if_pos magic]

theorem parseAccumulated_frame {width : ℕ} {content : FramedPacket}
    (verdict : packetDecision (accumBuf.drop offset) = .frame width content) :
    parseAccumulated packetCallback accumBuf accumulatedStart offset last state =
      packetCallback state (FramedPacket.at accumulatedStart (offset, content)) >>= fun state =>
        parseAccumulated packetCallback accumBuf accumulatedStart (offset + width)
          (offset + width) state := by
  obtain ⟨room, magic, length, lower, upper, rfl⟩ := packetDecision_frame verdict
  rw [List.length_drop] at room upper
  rw [slice_drop, Nat.add_zero] at magic
  rw [uint64At_drop] at length
  rw [parseAccumulated, if_pos (by omega), if_neg (by simpa using magic)]
  simp only [← length, FramedPacket.at, slice_drop, Nat.add_zero]
  rw [if_neg (by omega)]
  cases packetCallback state _ <;> rfl

end InnerLoop

/-- The inner loop runs the callback over the packets that a scan finds. -/
theorem parseAccumulated_eq_scan (packetCallback : σ → Packet → Except ε σ) (accumBuf : Buffer)
    (accumulatedStart parseOffset lastCompleteEnd : ℕ) (state : σ) :
    parseAccumulated packetCallback accumBuf accumulatedStart parseOffset lastCompleteEnd state =
      ((packetFraming.scan accumBuf parseOffset lastCompleteEnd).1.map
          (FramedPacket.at accumulatedStart)).foldlM packetCallback state >>= fun state =>
        .ok (state, (packetFraming.scan accumBuf parseOffset lastCompleteEnd).2) := by
  induction parseOffset, lastCompleteEnd using
    Resync.Framing.scan.induct packetFraming accumBuf generalizing state with
  | case1 offset last verdict =>
    rw [Resync.Framing.scan_wait verdict, parseAccumulated_wait verdict]
    rfl
  | case2 offset last width verdict ih =>
    rw [Resync.Framing.scan_skip verdict, parseAccumulated_skip verdict, ih]
  | case3 offset last width content verdict ih =>
    rw [Resync.Framing.scan_frame verdict, parseAccumulated_frame verdict]
    simp only [List.map_cons, List.foldlM_cons, bind_assoc]
    cases packetCallback state _ with
    | error error => rfl
    | ok next => exact ih next

/-- What a parse reports for the packets it has found: the callback run over them in order,
then an error if bytes are left over. -/
def report (packetCallback : σ → Packet → Except ε σ) (state : σ)
    (found : Resync.Framing.Reader UInt8 FramedPacket) : Except (ParseError ε) σ :=
  match (found.frames.map (FramedPacket.at 0)).foldlM packetCallback state with
  | .error error => .error (.thrown error)
  | .ok state => if 0 < found.leftover.length then .error .truncated else .ok state

/-- The packets found relative to the start of a chunk's buffer, placed in the file. -/
theorem at_rebase (base : ℕ) (frames : List (ℕ × FramedPacket)) :
    (Resync.Framing.rebase base frames).map (FramedPacket.at 0) =
      frames.map (FramedPacket.at base) := by
  simp [Resync.Framing.rebase, FramedPacket.at]

/-- A callback that throws among the first packets throws for the whole file. -/
theorem report_thrown {packetCallback : σ → Packet → Except ε σ} {symbols : Buffer} {state : σ}
    {error : ε} (more : Buffer)
    (thrown : ((packetFraming.received symbols).frames.map (FramedPacket.at 0)).foldlM
      packetCallback state = .error error) :
    report packetCallback state (packetFraming.received (symbols ++ more)) =
      .error (.thrown error) := by
  rw [report, ← packetFraming.receive_received, Resync.Framing.receive, List.map_append,
    List.foldlM_append, thrown]
  rfl

/-- Once the callback has run over the packets of everything received so far, the rest of
the chunks leads to the report over all packets of the file. The induction is on the
chunks; the reader's invariant says that its leftover and position are those of one scan. -/
theorem readChunk_eq_report (CHUNK_SIZE : ℕ) (packetCallback : σ → Packet → Except ε σ)
    (chunks : List Buffer) (nonempty : ∀ chunk ∈ chunks, chunk ≠ [])
    (bounded : ∀ chunk ∈ chunks, chunk.length ≤ CHUNK_SIZE) (symbols : Buffer) (start state : σ)
    (reported : ((packetFraming.received symbols).frames.map (FramedPacket.at 0)).foldlM
      packetCallback start = .ok state) :
    readChunk CHUNK_SIZE packetCallback chunks (packetFraming.received symbols).leftover
        (packetFraming.received symbols).position state =
      report packetCallback start (packetFraming.received (symbols ++ chunks.flatten)) := by
  induction chunks generalizing symbols state with
  | nil =>
    rw [List.flatten_nil, List.append_nil, report, reported]
    rfl
  | cons chunk later ih =>
    have present : chunk.length ≠ 0 := by
      simpa using nonempty chunk (by simp)
    have whole : chunk.take (min chunk.length CHUNK_SIZE) = chunk := by
      rw [Nat.min_eq_left (bounded chunk (by simp)), List.take_length]
    have grown := packetFraming.receive_received symbols chunk
    have frames := congrArg (fun found => found.frames.map (FramedPacket.at 0)) grown
    simp only [Resync.Framing.receive, List.map_append, at_rebase] at frames
    simp only [readChunk, if_neg present, whole]
    rw [parseAccumulated_eq_scan, List.flatten_cons, ← List.append_assoc]
    cases ran : ((packetFraming.scan ((packetFraming.received symbols).leftover ++ chunk) 0 0).1.map
        (FramedPacket.at ((packetFraming.received symbols).position -
          (packetFraming.received symbols).leftover.length))).foldlM packetCallback state with
    | error error =>
      have thrown : ((packetFraming.received (symbols ++ chunk)).frames.map
          (FramedPacket.at 0)).foldlM packetCallback start = .error error := by
        rw [← frames, List.foldlM_append, reported]
        exact ran
      rw [report_thrown later.flatten thrown]
      rfl
    | ok next =>
      have advanced : ((packetFraming.received (symbols ++ chunk)).frames.map
          (FramedPacket.at 0)).foldlM packetCallback start = .ok next := by
        rw [← frames, List.foldlM_append, reported]
        exact ran
      have continued := ih (fun piece member => nonempty piece (by simp [member]))
        (fun piece member => bounded piece (by simp [member])) (symbols ++ chunk) next advanced
      rw [← grown] at continued
      exact continued

/-- Every cutting of a file into nonempty chunks leads to the report over the whole file. -/
theorem readChunk_report (CHUNK_SIZE : ℕ) (packetCallback : σ → Packet → Except ε σ)
    (chunks : List Buffer) (nonempty : ∀ chunk ∈ chunks, chunk ≠ [])
    (bounded : ∀ chunk ∈ chunks, chunk.length ≤ CHUNK_SIZE) (state : σ) :
    readChunk CHUNK_SIZE packetCallback chunks [] 0 state =
      report packetCallback state (packetFraming.received chunks.flatten) := by
  have fresh : packetFraming.received [] = ⟨[], [], 0⟩ := by
    rw [Resync.Framing.received, Resync.Framing.scan_wait (by rfl)]
    rfl
  have ran := readChunk_eq_report CHUNK_SIZE packetCallback chunks nonempty bounded [] state state
    (by rw [fresh]; rfl)
  rwa [fresh] at ran

/-- A file that arrives at once, which a read of zero bytes also describes when it is empty. -/
theorem readChunk_single (packetCallback : σ → Packet → Except ε σ) (bytes : Buffer) (state : σ) :
    readChunk bytes.length packetCallback [bytes] [] 0 state =
      report packetCallback state (packetFraming.received bytes) := by
  cases bytes with
  | nil => exact readChunk_report 0 packetCallback [] (by simp) (by simp) state
  | cons byte rest =>
    have whole := readChunk_report (byte :: rest).length packetCallback [byte :: rest] (by simp)
      (by simp) state
    rwa [List.flatten_singleton] at whole

/-- Both parsers find the same packets, with the same absolute offsets, and end the same
way for every cutting of the file into chunks that are not empty. The callback is
arbitrary: one that records its arguments, or the verdict on their checksum, reads off
the sequence of packets, and one that throws ends both parses at the same packet. -/
theorem parse_stream_chunking {τ : Type*} (CHUNK_SIZE : ℕ)
    (packetCallback : σ → Packet → Except ε σ) (state : σ)
    (plainCallback : τ → PacketType → Buffer → ℕ → Buffer → Except ε τ) (plainState : τ)
    (chunks : List Buffer) (nonempty : ∀ chunk ∈ chunks, chunk ≠ [])
    (bounded : ∀ chunk ∈ chunks, chunk.length ≤ CHUNK_SIZE) :
    par3_parse_stream_pass1 CHUNK_SIZE packetCallback chunks state =
        par3_parse_stream_pass1 chunks.flatten.length packetCallback [chunks.flatten] state ∧
      par3_parse_stream CHUNK_SIZE plainCallback chunks plainState =
        par3_parse_stream chunks.flatten.length plainCallback [chunks.flatten] plainState := by
  constructor
  · exact (readChunk_report CHUNK_SIZE packetCallback chunks nonempty bounded state).trans
      (readChunk_single packetCallback chunks.flatten state).symm
  · exact (readChunk_report CHUNK_SIZE _ chunks nonempty bounded plainState).trans
      (readChunk_single _ chunks.flatten plainState).symm

/-- The smallest packet: a header alone, with a zero checksum, of type `START`. -/
def headerOnly : Buffer :=
  PAR3_MAGIC ++ List.replicate 16 0 ++ toLittleEndian 8 48 ++ List.replicate 8 0 ++
    PacketType.START.code

/-- A callback that records what it is given, the first packet last. -/
def recordPacket (seen : List Packet) (packet : Packet) : Except Unit (List Packet) :=
  .ok (packet :: seen)

/-- The same for the plain parser. -/
def recordFields (seen : List (PacketType × Buffer × ℕ × Buffer)) (type : PacketType)
    (body : Buffer) (bodyLen : ℕ) (header : Buffer) :
    Except Unit (List (PacketType × Buffer × ℕ × Buffer)) :=
  .ok ((type, body, bodyLen, header) :: seen)

/-- The packet arrives in three pieces, the first of a single byte. -/
theorem parse_stream_chunking_pieces :
    let pieces := [headerOnly.take 1, (headerOnly.drop 1).take 30, headerOnly.drop 31]
    par3_parse_stream_pass1 CHUNK_SIZE recordPacket pieces [] =
        par3_parse_stream_pass1 pieces.flatten.length recordPacket [pieces.flatten] [] ∧
      par3_parse_stream CHUNK_SIZE recordFields pieces [] =
        par3_parse_stream pieces.flatten.length recordFields [pieces.flatten] [] :=
  parse_stream_chunking CHUNK_SIZE recordPacket [] recordFields []
    [headerOnly.take 1, (headerOnly.drop 1).take 30, headerOnly.drop 31]
    (by decide +kernel) (by decide +kernel)

/-- A read of zero bytes is the end of the file, so an empty chunk in front of the packet
hides it from both parsers, although the same bytes in one chunk hold a packet. -/
theorem empty_chunk_ends_parse :
    let chunks := [[], headerOnly]
    par3_parse_stream_pass1 CHUNK_SIZE recordPacket chunks [] ≠
        par3_parse_stream_pass1 CHUNK_SIZE recordPacket [chunks.flatten] [] ∧
      par3_parse_stream CHUNK_SIZE recordFields chunks [] ≠
        par3_parse_stream CHUNK_SIZE recordFields [chunks.flatten] [] := by
  decide +kernel

/-! ## Files that are packets back to back -/

/-- The bytes of a sequence of packets. -/
def packetBytes (packets : List RawPacket) : Buffer := packets.flatMap RawPacket.bytes

@[simp] theorem packetBytes_nil : packetBytes [] = [] := rfl

@[simp] theorem packetBytes_cons (packet : RawPacket) (later : List RawPacket) :
    packetBytes (packet :: later) = packet.bytes ++ packetBytes later := rfl

@[simp] theorem packetBytes_append (first second : List RawPacket) :
    packetBytes (first ++ second) = packetBytes first ++ packetBytes second :=
  List.flatMap_append

/-- A packet as the framing reports it. -/
def RawPacket.framed (packet : RawPacket) : FramedPacket :=
  { type := packet.type
    body := packet.body
    bodyLen := packet.body.length
    header := packet.header }

/-- Packets with the offsets at which they start. -/
def placed : ℕ → List RawPacket → List (ℕ × FramedPacket)
  | _, [] => []
  | start, packet :: later =>
    (start, packet.framed) :: placed (start + packet.bytes.length) later

theorem packetDecision_packet {packet : RawPacket} (formed : packet.WellFormed) (rest : Buffer) :
    packetDecision (packet.bytes ++ rest) = .frame packet.bytes.length packet.framed := by
  obtain ⟨magic, _, _, length, code⟩ := RawPacket.header_fields formed
  have width := RawPacket.header_length formed
  have total := RawPacket.bytes_length formed
  have field (start stop : ℕ) (inside : stop ≤ 48) :
      slice (packet.bytes ++ rest) start stop = slice packet.header start stop := by
    rw [RawPacket.bytes, List.append_assoc, slice_append _ _ _ _ (by omega)]
  have stored : uint64At (packet.bytes ++ rest) 24 = packet.bytes.length := by
    rw [uint64At_written _ 24 (PAR3_PKT_HDR_SIZE + packet.body.length) formed.body_small
      (by rw [field 24 32 (by omega), length]), total]
    rfl
  have body : slice (packet.bytes ++ rest) 48 packet.bytes.length = packet.body := by
    rw [slice, RawPacket.bytes, List.append_assoc, List.drop_append_of_le_length (by omega),
      List.drop_eq_nil_of_le (by omega), List.nil_append, List.length_append, width]
    simp
  have whole : slice packet.header 0 48 = packet.header := by
    rw [slice, List.drop_zero, List.take_of_length_le (by omega)]
  rw [packetDecision, stored, field 0 8 (by omega), field 40 48 (by omega),
    field 0 48 (by omega), magic, code, body, whole, List.length_append, if_neg (by omega),
    if_neg (by simp), if_neg (by omega), (PacketType.ofHeader_code packet.type).2.1, total]
  simp [RawPacket.framed]

/-- A scan of packets back to back finds each of them, whatever precedes them. -/
theorem scan_packets (before : Buffer) (packets : List RawPacket)
    (formed : ∀ packet ∈ packets, packet.WellFormed) :
    packetFraming.scan (before ++ packetBytes packets) before.length before.length =
      (placed before.length packets, (before ++ packetBytes packets).length) := by
  induction packets generalizing before with
  | nil =>
    have verdict : packetFraming.decision
        ((before ++ packetBytes []).drop before.length) = .wait := by
      simp [packetFraming, packetDecision]
    rw [Resync.Framing.scan_wait verdict]
    simp [placed]
  | cons packet later ih =>
    have verdict : packetFraming.decision
        ((before ++ packetBytes (packet :: later)).drop before.length) =
          .frame packet.bytes.length packet.framed := by
      rw [List.drop_append_of_le_length (Nat.le_refl _), List.drop_length, List.nil_append,
        packetBytes_cons]
      exact packetDecision_packet (formed packet (by simp)) _
    have next := ih (before ++ packet.bytes)
      (fun other member => formed other (by simp [member]))
    rw [List.append_assoc, List.length_append] at next
    rw [Resync.Framing.scan_frame verdict, packetBytes_cons, next]
    rfl

end Par3
