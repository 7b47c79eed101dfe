import Par3.FirstPass

/-!
# The buffer parser

A second copy of the scanner takes its input at once. It advances by eight bytes where the
magic sequence is missing, as the streaming parsers do, but by a whole header where a length
field is below the header size or reaches behind the buffer, and it never reports that bytes
are left over. The two scanners agree exactly on inputs that end with a complete packet to
which the scan comes in steps over gaps and complete packets.
-/

namespace Par3

universe u v
variable {σ : Type u} {ε : Type v}

/-! ## The scanner -/

/-- The loop of `par3_parse_buffer` from an offset on. -/
def parseBufferFrom (callback : σ → PacketType → Buffer → ℕ → Except ε σ) (buffer : Buffer)
    (offset : ℕ) (state : σ) : Except ε σ :=
  if offset + 48 ≤ buffer.length then
    if slice buffer offset (offset + 8) ≠ PAR3_MAGIC then
      parseBufferFrom callback buffer (offset + 8) state
    else
      let pktLen := uint64At buffer (offset + 24)
      if pktLen < 48 ∨ buffer.length < offset + pktLen then
        parseBufferFrom callback buffer (offset + 48) state
      else
        let type := PacketType.ofHeader (slice buffer (offset + 40) (offset + 48))
        let body := slice buffer (offset + 48) (offset + pktLen)
        match callback state type body (pktLen - 48) with
        | .error error => .error error
        | .ok state => parseBufferFrom callback buffer (offset + pktLen) state
  else
    .ok state
termination_by buffer.length - offset
decreasing_by all_goals omega

/-- `par3_parse_buffer`. An exception of the callback is passed to `done`. -/
def par3_parse_buffer (callback : σ → PacketType → Buffer → ℕ → Except ε σ) (buffer : Buffer)
    (state : σ) : Except ε σ :=
  parseBufferFrom callback buffer 0 state

/-- The same callback for the streaming parser, which also hands over the header. -/
def ignoreHeader (callback : σ → PacketType → Buffer → ℕ → Except ε σ) (state : σ)
    (type : PacketType) (body : Buffer) (bodyLen : ℕ) (_header : Buffer) : Except ε σ :=
  callback state type body bodyLen

/-- The callback run over packets without their headers. -/
def deliver (callback : σ → PacketType → Buffer → ℕ → Except ε σ) (state : σ) (packet : Packet) :
    Except ε σ :=
  callback state packet.type packet.body packet.bodyLen

section Loop

variable {callback : σ → PacketType → Buffer → ℕ → Except ε σ} {buffer : Buffer} {offset : ℕ}
  {state : σ}

theorem parseBufferFrom_end (short : buffer.length < offset + 48) :
    parseBufferFrom callback buffer offset state = .ok state := by
  rw [parseBufferFrom, if_neg (by omega)]

theorem parseBufferFrom_skip {width : ℕ}
    (verdict : packetDecision (buffer.drop offset) = .skip width) :
    parseBufferFrom callback buffer offset state =
      parseBufferFrom callback buffer (offset + width) state := by
  obtain ⟨room, magic, rfl⟩ := packetDecision_skip verdict
  rw [List.length_drop] at room
  rw [slice_drop, Nat.add_zero] at magic
  rw [parseBufferFrom, if_pos (by omega), if_pos magic]

theorem parseBufferFrom_frame {width : ℕ} {content : FramedPacket}
    (verdict : packetDecision (buffer.drop offset) = .frame width content) :
    parseBufferFrom callback buffer offset state =
      deliver callback state (FramedPacket.at 0 (offset, content)) >>= fun state =>
        parseBufferFrom callback buffer (offset + width) state := by
  obtain ⟨room, magic, length, lower, upper, rfl⟩ := packetDecision_frame verdict
  rw [List.length_drop] at room upper
  rw [slice_drop, Nat.add_zero] at magic
  rw [uint64At_drop] at length
  rw [parseBufferFrom, if_pos (by omega), if_neg (by simpa using magic)]
  simp only [← length, FramedPacket.at, slice_drop, deliver]
  rw [if_neg (by omega)]
  cases callback state _ _ _ <;> rfl

end Loop

/-- When a scan of the buffer takes all of it, the loop finds the same packets. -/
theorem parseBufferFrom_scan (callback : σ → PacketType → Buffer → ℕ → Except ε σ)
    (buffer : Buffer) (offset last : ℕ) (ordered : last ≤ offset) (state : σ)
    (whole : (packetFraming.scan buffer offset last).2 = buffer.length) :
    parseBufferFrom callback buffer offset state =
      ((packetFraming.scan buffer offset last).1.map (FramedPacket.at 0)).foldlM
        (deliver callback) state := by
  induction offset, last using Resync.Framing.scan.induct packetFraming buffer
    generalizing state with
  | case1 offset last verdict =>
    rw [Resync.Framing.scan_wait verdict] at whole ⊢
    rw [parseBufferFrom_end (by simp only at whole; omega)]
    rfl
  | case2 offset last width verdict ih =>
    rw [Resync.Framing.scan_skip verdict] at whole ⊢
    rw [parseBufferFrom_skip verdict]
    exact ih (by omega) state whole
  | case3 offset last width content verdict ih =>
    rw [Resync.Framing.scan_frame verdict] at whole ⊢
    rw [parseBufferFrom_frame verdict, List.map_cons, List.foldlM_cons]
    congr 1
    funext next
    exact ih (Nat.le_refl _) next whole

/-- A callback that never throws is never seen to fail. -/
theorem parseBufferFrom_ok (callback : σ → PacketType → Buffer → ℕ → Except ε σ)
    (total : ∀ state type body bodyLen, ∃ next, callback state type body bodyLen = .ok next)
    (buffer : Buffer) (offset : ℕ) (state : σ) :
    ∃ next, parseBufferFrom callback buffer offset state = .ok next := by
  induction offset, state using parseBufferFrom.induct callback buffer with
  | case1 offset state room magic ih =>
    rw [parseBufferFrom, if_pos room, if_pos magic]
    exact ih
  | case2 offset state room magic pktLen bad ih =>
    rw [parseBufferFrom, if_pos room, if_neg magic]
    simp only [pktLen] at bad
    rw [if_pos bad]
    exact ih
  | case3 offset state room magic pktLen good type body error thrown =>
    obtain ⟨next, passes⟩ := total state type body (pktLen - 48)
    rw [passes] at thrown
    cases thrown
  | case4 offset state room magic pktLen good type body next passes ih =>
    rw [parseBufferFrom, if_pos room, if_neg magic]
    simp only [pktLen] at good
    rw [if_neg good]
    simp only [type, body, pktLen] at passes
    simp only [passes]
    exact ih
  | case5 offset state short => exact ⟨state, by rw [parseBufferFrom, if_neg short]⟩

/-! ## Inputs made of whole pieces -/

/-- Bytes that a scan takes for one packet: the magic sequence and a length field that holds
their number. -/
structure PacketShaped (piece : Buffer) : Prop where
  header : 48 ≤ piece.length
  magic : slice piece 0 8 = PAR3_MAGIC
  length : uint64At piece 24 = piece.length

/-- Bytes that a scan steps over: gaps of eight bytes other than the magic sequence, and
complete packets. -/
inductive Walkable : Buffer → Prop where
  | nil : Walkable []
  | gap (group later : Buffer) (width : group.length = 8) (other : group ≠ PAR3_MAGIC)
      (rest : Walkable later) : Walkable (group ++ later)
  | packet (piece later : Buffer) (shaped : PacketShaped piece) (rest : Walkable later) :
      Walkable (piece ++ later)

/-- Nothing, or bytes to step over and a packet behind them. -/
def EndsWithPacket (bytes : Buffer) : Prop :=
  bytes = [] ∨ ∃ front piece, bytes = front ++ piece ∧ Walkable front ∧ PacketShaped piece

/-- A packet-shaped piece is taken whole, whatever follows. -/
theorem PacketShaped.decision {piece : Buffer} (shaped : PacketShaped piece) (later : Buffer) :
    ∃ content, packetDecision (piece ++ later) = .frame piece.length content := by
  obtain ⟨header, magic, length⟩ := shaped
  have alone : packetDecision piece = .frame piece.length
      ⟨PacketType.ofHeader (slice piece 40 48), slice piece 48 piece.length, piece.length - 48,
        slice piece 0 48⟩ := by
    rw [packetDecision, if_neg (by omega), if_neg (by simpa using magic), length,
      if_neg (by omega)]
  exact ⟨_, packetFraming.frame_stable later alone⟩

/-- What a scan takes for a packet is packet-shaped. -/
theorem PacketShaped.of_decision {rest : Buffer} {width : ℕ} {content : FramedPacket}
    (verdict : packetDecision rest = .frame width content) :
    PacketShaped (rest.take width) := by
  obtain ⟨room, magic, length, lower, upper, _⟩ := packetDecision_frame verdict
  have full : (rest.take width).length = width := List.length_take_of_le upper
  have fields := List.take_append_drop width rest
  refine ⟨by omega, ?_, ?_⟩
  · rw [← magic, ← fields, slice_append _ _ _ _ (by omega), fields]
  · rw [full, ← uint64At_append (rest.take width) (rest.drop width) 24 (by omega), fields]
    exact length.symm

/-- A scan steps over such bytes when enough bytes follow for a header. -/
theorem Walkable.reaches {middle : Buffer} (walkable : Walkable middle) (before later : Buffer)
    (room : 48 ≤ later.length) :
    packetFraming.Reaches (before ++ middle ++ later) before.length
      (before.length + middle.length) := by
  induction walkable generalizing before with
  | nil => exact .here _
  | gap group rest width other walkable ih =>
    have later := ih (before ++ group)
    simp only [List.length_append, width] at later ⊢
    refine @Resync.Framing.Reaches.skip _ _ _ _ _ 8 _ ?_ ?_
    · change packetDecision _ = _
      rw [List.append_assoc, List.drop_left, packetDecision, List.append_assoc, slice,
        List.drop_zero, List.take_append_of_le_length (by omega), Nat.sub_zero,
        List.take_of_length_le (by omega), if_neg (by simp only [List.length_append]; omega),
        if_pos other]
    · simpa only [List.append_assoc, Nat.add_assoc] using later
  | packet piece rest shaped walkable ih =>
    have later := ih (before ++ piece)
    simp only [List.length_append] at later ⊢
    obtain ⟨content, verdict⟩ := shaped.decision (rest ++ _)
    refine @Resync.Framing.Reaches.frame _ _ _ _ _ piece.length _ content ?_ ?_
    · change packetDecision _ = _
      rw [List.append_assoc, List.drop_left, List.append_assoc]
      exact verdict
    · simpa only [List.append_assoc, Nat.add_assoc] using later

/-- The bytes between two positions of a scan. -/
theorem Walkable.of_reaches {buffer : Buffer} {offset target : ℕ}
    (reaches : packetFraming.Reaches buffer offset target) (inside : target ≤ buffer.length) :
    Walkable (slice buffer offset target) := by
  induction reaches with
  | here => simpa [slice] using Walkable.nil
  | @skip offset width target verdict later ih =>
    obtain ⟨room, magic, rfl⟩ := packetDecision_skip verdict
    have behind := later.le
    rw [slice_drop, Nat.add_zero] at magic
    rw [slice_split buffer offset (offset + 8) target (by omega) behind]
    refine .gap _ _ ?_ magic (ih inside)
    rw [slice_length _ _ _ (by omega)]
    omega
  | @frame offset width target content verdict later ih =>
    obtain ⟨room, magic, length, lower, upper, _⟩ := packetDecision_frame verdict
    have behind := later.le
    rw [slice_split buffer offset (offset + width) target (by omega) behind]
    refine .packet _ _ ?_ (ih inside)
    rw [slice, Nat.add_sub_cancel_left]
    exact .of_decision verdict

/-! ## When the scanners agree -/

/-- A scan leaves no bytes over exactly when the input ends with a packet, or is empty. -/
theorem leftoverOf_eq_nil_iff (bytes : Buffer) : leftoverOf bytes = [] ↔ EndsWithPacket bytes := by
  have bound := (packetFraming.scan_last bytes 0 0 (Nat.le_refl _) (Nat.zero_le _)).2
  have empty : leftoverOf bytes = [] ↔ (packetFraming.scan bytes 0 0).2 = bytes.length := by
    rw [leftoverOf, Resync.Framing.received, List.drop_eq_nil_iff]
    omega
  rw [empty]
  constructor
  · intro whole
    rcases packetFraming.scan_marker bytes 0 0 with none | ⟨frame, member, width, verdict, last⟩
    · exact .inl (List.eq_nil_of_length_eq_zero (whole.symm.trans none))
    · obtain ⟨_, _, _, _, upper, _⟩ := packetDecision_frame verdict
      rw [List.length_drop] at upper
      have reaches := (packetFraming.scan_reaches bytes 0 0 frame member).1
      have rest : (bytes.drop frame.1).take width = bytes.drop frame.1 :=
        List.take_of_length_le (by rw [List.length_drop]; omega)
      have front := Walkable.of_reaches reaches (by omega)
      have piece := PacketShaped.of_decision verdict
      rw [slice, List.drop_zero, Nat.sub_zero] at front
      rw [rest] at piece
      exact .inr ⟨_, _, (List.take_append_drop frame.1 bytes).symm, front, piece⟩
  · rintro (rfl | ⟨front, piece, rfl, walkable, shaped⟩)
    · rw [Resync.Framing.scan_wait (by rfl)]
      rfl
    · have reaches := walkable.reaches [] piece shaped.header
      obtain ⟨content, verdict⟩ := shaped.decision []
      rw [List.append_nil] at verdict
      rw [List.nil_append, List.length_nil, Nat.zero_add] at reaches
      have decided : packetFraming.decision ((front ++ piece).drop front.length) =
          .frame piece.length content := by
        rw [List.drop_left]
        exact verdict
      have ends := @Resync.Framing.Reaches.before_last _ _ packetFraming _ _ _ _ 0 _ reaches decided
      rw [List.length_append] at bound ⊢
      omega

/-- Both scanners end the same way, or both signal that something is wrong. -/
def sameOutcome (stream : Except (ParseError ε) σ) (buffer : Except ε σ) : Prop :=
  stream = buffer.mapError .thrown ∨
    ∃ streamError bufferError, stream = .error streamError ∧ buffer = .error bufferError

/-- The parsers agree on an input, for any callback and any cutting into chunks. A callback
that records its arguments shows the sequence of packets. -/
def parsersAgree (bytes : Buffer) : Prop :=
  ∀ (σ ε : Type) (callback : σ → PacketType → Buffer → ℕ → Except ε σ) (state : σ)
    (chunks : List Buffer), (∀ chunk ∈ chunks, chunk ≠ []) →
    (∀ chunk ∈ chunks, chunk.length ≤ CHUNK_SIZE) → chunks.flatten = bytes →
    sameOutcome (par3_parse_stream CHUNK_SIZE (ignoreHeader callback) chunks state)
      (par3_parse_buffer callback bytes state)

/-- The streaming parser on any cutting of an input. -/
theorem par3_parse_stream_packets (callback : σ → PacketType → Buffer → ℕ → Except ε σ) (state : σ)
    (chunks : List Buffer) (nonempty : ∀ chunk ∈ chunks, chunk ≠ [])
    (bounded : ∀ chunk ∈ chunks, chunk.length ≤ CHUNK_SIZE) :
    par3_parse_stream CHUNK_SIZE (ignoreHeader callback) chunks state =
      match (packetsOf chunks.flatten).foldlM (deliver callback) state with
      | .error error => .error (.thrown error)
      | .ok state => if 0 < (leftoverOf chunks.flatten).length then .error .truncated
        else .ok state :=
  readChunk_packets _ chunks nonempty bounded state

/-- The scanners agree exactly when the streaming parser has no bytes left over. -/
theorem parsersAgree_iff_leftover (bytes : Buffer) :
    parsersAgree bytes ↔ leftoverOf bytes = [] := by
  constructor
  · intro agree
    by_contra cutOff
    have pos := List.length_pos_iff.mpr cutOff
    have total (state : Unit) (type : PacketType) (body : Buffer) (bodyLen : ℕ) :
        ∃ next, (fun _ _ _ _ => .ok () : Unit → PacketType → Buffer → ℕ → Except Unit Unit)
          state type body bodyLen = .ok next := ⟨(), rfl⟩
    obtain ⟨whole, pieces⟩ := cut_spec CHUNK_SIZE (by decide) bytes
    have outcome := agree Unit Unit (fun _ _ _ _ => .ok ()) () (cut CHUNK_SIZE bytes)
      (fun piece member => (pieces piece member).1) (fun piece member => (pieces piece member).2)
      whole
    obtain ⟨next, accepted⟩ := parseBufferFrom_ok _ total bytes 0 ()
    rw [par3_parse_buffer, accepted] at outcome
    rcases outcome with same | ⟨_, _, _, impossible⟩
    · rw [par3_parse_stream_packets _ _ _ (fun piece member => (pieces piece member).1)
        (fun piece member => (pieces piece member).2), whole] at same
      simp only [if_pos pos] at same
      cases ran : (packetsOf bytes).foldlM (deliver fun _ _ _ _ => .ok ()) () with
      | error error =>
        rw [ran] at same
        cases same
      | ok state =>
        rw [ran] at same
        cases same
    · cases impossible
  · intro complete σ ε callback state chunks nonempty bounded whole
    have taken : (packetFraming.scan bytes 0 0).2 = bytes.length := by
      have bound := (packetFraming.scan_last bytes 0 0 (Nat.le_refl _) (Nat.zero_le _)).2
      rw [leftoverOf, Resync.Framing.received, List.drop_eq_nil_iff] at complete
      omega
    rw [sameOutcome, par3_parse_stream_packets callback state chunks nonempty bounded, whole,
      complete, par3_parse_buffer, parseBufferFrom_scan callback bytes 0 0 (Nat.le_refl _) state taken]
    left
    change _ = ((packetsOf bytes).foldlM (deliver callback) state).mapError _
    cases (packetsOf bytes).foldlM (deliver callback) state <;> rfl

/-- The scanners agree exactly on inputs that end with a packet. They deliver the same packets, and
only the streaming one complains of what is left behind the last. -/
theorem parsersAgree_iff (bytes : Buffer) : parsersAgree bytes ↔ EndsWithPacket bytes := by
  rw [parsersAgree_iff_leftover]
  exact leftoverOf_eq_nil_iff bytes

/-- A header whose length field is one more than the bytes that are there: the streaming
parser reports a truncated file, the buffer parser ends without a packet or an error. -/
theorem overlong_length_differs :
    ¬ parsersAgree (PAR3_MAGIC ++ List.replicate 16 0 ++ toLittleEndian 8 49 ++
      List.replicate 8 0 ++ PacketType.START.code) := by
  rw [parsersAgree_iff_leftover]
  decide +kernel

end Par3
