import Par3.FirstPass

/-!
# Verify

Verify parses the archive once and counts blocks: every DATA packet counts as its block and
every RECOVERY packet as the blocks it names. The checksum verdict is computed for every
packet and dropped. A block below the expected total that nothing counts is missing, and the
archive is called repairable when there are at most as many missing blocks as recovery blocks.
-/

namespace Par3

/-! ## The scanner -/

/-- The body fields of a matrix packet that verify keeps. -/
structure VerifyMatrix where
  first_input : ℕ
  last_input : ℕ
  first_recovery : ℕ
  recovery_count : Option ℕ
deriving DecidableEq

structure RecoveryBlock where
  first_block : ℕ
  block_count : ℕ
deriving DecidableEq

/-- `verifyState`, without the fields that nothing reads. -/
structure VerifyState where
  startPacket : Option StartPacket := none
  matrix : Option VerifyMatrix := none
  recoveryBlocks : List RecoveryBlock := []
  availableBlocks : List ℕ := []
  recoveryCount : ℤ := 0
  inputCount : ℤ := 0
deriving DecidableEq

/-- Read a CAUCHY or MATRIX body, of which the recovery count may be absent. -/
def readVerifyMatrix (body : Buffer) : Except CallbackError VerifyMatrix := do
  let first_input ← orThrow (readUInt64LE body 0)
  let last_input ← orThrow (readUInt64LE body 8)
  let first_recovery ← orThrow (readUInt64LE body 16)
  return {
    first_input, last_input, first_recovery
    recovery_count := if 32 ≤ body.length then readUInt64LE body 24 else none }

/-- `packetCallback`. The verdict of the checksum is not looked at, and the loop over the
blocks of a RECOVERY packet never ends when its counter reaches a gap. -/
def verifyCallback (blake3 : Hash) (verifyState : VerifyState) (type : PacketType) (body : Buffer)
    (_body_length : ℕ) (header : Buffer) : Except CallbackError VerifyState := do
  let _ := validatePacketChecksum blake3 header body
  match type with
  | .START =>
    let startPacket ← readStart body
    return { verifyState with startPacket := some startPacket }
  | .CAUCHY | .MATRIX =>
    let matrix ← readVerifyMatrix body
    return { verifyState with
      matrix := some matrix
      recoveryCount := match matrix.recovery_count with
        | some count => count
        | none => verifyState.recoveryCount
      inputCount := double (double (matrix.last_input - matrix.first_input) + 1) }
  | .RECOVERY =>
    let first_block ← orThrow (readUInt64LE body 0)
    let block_count ← orThrow (readUInt64LE body 8)
    if 2 ^ 53 < block_count then
      .error .diverges
    else
      return { verifyState with
        recoveryBlocks := verifyState.recoveryBlocks ++ [⟨first_block, block_count⟩]
        availableBlocks := verifyState.availableBlocks ++
          (List.range block_count).map fun i => (double (first_block + (i : ℕ))).toNat }
  | .DATA =>
    let block_index ← orThrow (readUInt64LE body 0)
    return { verifyState with availableBlocks := verifyState.availableBlocks ++ [block_index] }
  | _ => return verifyState

/-- Why verify reports nothing. The last one stands for a loop that never ends. -/
inductive VerifyError where
  | parse (error : ParseError CallbackError)
  | noStart
  | noMatrix
  | noRecovery
  | diverges
deriving DecidableEq

/-- The texts the callback receives. -/
def VerifyError.message : VerifyError → String
  | parse _ => "Failed to parse PAR3 file: "
  | noStart => "No Start packet found"
  | noMatrix => "No Matrix packet found"
  | noRecovery => "No recovery blocks available"
  | diverges => ""

structure VerifyReport where
  archiveOk : Bool
  canRepair : Bool
  inputBlocks : ℤ
  recoveryBlocks : ℤ
  missingBlockList : List ℕ
  blockSize : ℕ
deriving DecidableEq

/-- `par3_verify`. -/
def par3_verify (blake3 : Hash) (file : Buffer) : Except VerifyError VerifyReport :=
  match par3_parse_stream CHUNK_SIZE (verifyCallback blake3) (cut CHUNK_SIZE file) {} with
  | .error error => .error (.parse error)
  | .ok verifyState =>
    match verifyState.startPacket, verifyState.matrix with
    | none, _ => .error .noStart
    | some _, none => .error .noMatrix
    | some startPacket, some matrix =>
      let recoveryCount := match matrix.recovery_count with
        | some _ => verifyState.recoveryCount
        | none => verifyState.recoveryBlocks.foldl
          (fun (sum : ℤ) rb => double (sum + (rb.block_count : ℤ))) 0
      if matrix.recovery_count = some 0 then .error .noRecovery
      else
        let expectedBlocks := double (verifyState.inputCount + recoveryCount)
        if 2 ^ 53 < expectedBlocks then .error .diverges
        else
          let missingBlocks := (List.range expectedBlocks.toNat).filter fun i =>
            !verifyState.availableBlocks.contains i
          .ok {
            archiveOk := decide (missingBlocks.length = 0)
            canRepair := decide ((missingBlocks.length : ℤ) ≤ recoveryCount)
            inputBlocks := verifyState.inputCount
            recoveryBlocks := recoveryCount
            missingBlockList := missingBlocks
            blockSize := startPacket.block_size }

/-! ## What the scanner counts -/

/-- The blocks that a packet is counted for. -/
def presentBlocks (packet : Packet) : List ℕ :=
  match packet.type with
  | .DATA => [uint64At packet.body 0]
  | .RECOVERY => (List.range (uint64At packet.body 8)).map fun i =>
    (double (uint64At packet.body 0 + (i : ℕ))).toNat
  | _ => []

/-- Whether the scanner can read a packet. -/
def scannable (packet : Packet) : Bool :=
  match packet.type with
  | .START => decide (28 ≤ packet.body.length)
  | .CAUCHY | .MATRIX => decide (24 ≤ packet.body.length)
  | .DATA => decide (8 ≤ packet.body.length)
  | .RECOVERY => decide (16 ≤ packet.body.length) && decide (uint64At packet.body 8 ≤ 2 ^ 53)
  | _ => true

/-- What verify keeps of the parameters. -/
def MatrixPacket.forVerify (matrix : MatrixPacket) : VerifyMatrix :=
  { first_input := matrix.first_input
    last_input := matrix.last_input
    first_recovery := matrix.first_recovery
    recovery_count := matrix.recovery_count }

/-- The counts a RECOVERY packet records, whatever its checksum. -/
def recoveryBlockOf (packet : Packet) : Option RecoveryBlock :=
  if packet.type = .RECOVERY then some ⟨uint64At packet.body 0, uint64At packet.body 8⟩ else none

/-- The state after a list of packets that can all be read. -/
def counted (packets : List Packet) (before : VerifyState) : VerifyState :=
  { startPacket := lastOf startOf packets before.startPacket
    matrix := lastOf (fun packet => (matrixOf packet).map MatrixPacket.forVerify) packets
      before.matrix
    recoveryBlocks := before.recoveryBlocks ++ packets.filterMap recoveryBlockOf
    availableBlocks := before.availableBlocks ++ packets.flatMap presentBlocks
    recoveryCount := (lastOf (fun packet => ((matrixOf packet).bind MatrixPacket.recovery_count).map
      Nat.cast) packets (some before.recoveryCount)).getD 0
    inputCount := (lastOf (fun packet => (matrixOf packet).map MatrixPacket.inputCount) packets
      (some before.inputCount)).getD 0 }

theorem readVerifyMatrix_eq (body : Buffer) :
    readVerifyMatrix body = (readMatrix body).map MatrixPacket.forVerify := by
  unfold readVerifyMatrix readMatrix
  cases readUInt64LE body 0 <;> cases readUInt64LE body 8 <;> cases readUInt64LE body 16 <;> rfl

/-- The parameters after one matrix packet. -/
theorem counted_matrix (packet : Packet) (matrix : MatrixPacket) (before : VerifyState)
    (kind : packet.type = .CAUCHY ∨ packet.type = .MATRIX)
    (read : readMatrix packet.body = .ok matrix) :
    counted [packet] before = { before with
      matrix := some matrix.forVerify
      recoveryCount := match matrix.recovery_count with
        | some count => count
        | none => before.recoveryCount
      inputCount := matrix.inputCount } := by
  have parameters : matrixOf packet = some matrix := by
    rw [matrixOf, if_pos kind, read]
    rfl
  have others : startOf packet = none ∧ recoveryBlockOf packet = none ∧
      presentBlocks packet = [] := by
    unfold startOf recoveryBlockOf presentBlocks
    rcases kind with kind | kind <;> simp [kind]
  obtain ⟨start, recovery, present⟩ := others
  simp only [counted, lastOf, List.foldl_cons, List.foldl_nil, start, parameters, recovery, present,
    List.filterMap_cons, List.filterMap_nil, List.flatMap_cons, List.flatMap_nil, List.append_nil,
    Option.map_some, Option.bind_some, Option.none_or, Option.some_or, Option.getD_some]
  cases matrix.recovery_count <;> rfl

/-- One call of the callback on a packet that can be read. -/
theorem verifyCallback_ok (blake3 : Hash) (before : VerifyState) (packet : Packet)
    (read : scannable packet = true) :
    verifyCallback blake3 before packet.type packet.body packet.bodyLen packet.header =
      .ok (counted [packet] before) := by
  unfold scannable at read
  unfold verifyCallback
  cases kind : packet.type with
  | START =>
    rw [kind] at read
    have long := of_decide_eq_true read
    simp only [readStart_eq, if_pos long]
    simp [counted, lastOf, startOf, matrixOf, recoveryBlockOf, presentBlocks, kind, readStart_eq,
      long, Except.toOption]
  | CAUCHY =>
    rw [kind] at read
    have long := of_decide_eq_true read
    have fields := readMatrix_eq packet.body
    rw [if_pos long] at fields
    rw [counted_matrix packet _ before (.inl kind) fields, readVerifyMatrix_eq, fields]
    rfl
  | MATRIX =>
    rw [kind] at read
    have long := of_decide_eq_true read
    have fields := readMatrix_eq packet.body
    rw [if_pos long] at fields
    rw [counted_matrix packet _ before (.inr kind) fields, readVerifyMatrix_eq, fields]
    rfl
  | DATA =>
    rw [kind] at read
    have long := of_decide_eq_true read
    simp [long, counted, lastOf, startOf, matrixOf, recoveryBlockOf, presentBlocks, kind,
      readUInt64LE]
    rfl
  | RECOVERY =>
    rw [kind] at read
    obtain ⟨long, finite⟩ := (Bool.and_eq_true _ _).mp read
    have long := of_decide_eq_true long
    have finite := of_decide_eq_true finite
    have first : readUInt64LE packet.body 0 = some (uint64At packet.body 0) := by
      rw [readUInt64LE, if_pos (by omega)]
    have count : readUInt64LE packet.body 8 = some (uint64At packet.body 8) := by
      rw [readUInt64LE, if_pos (by omega)]
    have ends : ¬ 2 ^ 53 < uint64At packet.body 8 := Nat.not_lt.mpr finite
    simp only [first, count, orThrow, bind, Except.bind, if_neg ends]
    simp [counted, lastOf, startOf, matrixOf, recoveryBlockOf, presentBlocks, kind]
    rfl
  | _ =>
    simp [counted, lastOf, startOf, matrixOf, recoveryBlockOf, presentBlocks, kind]
    rfl

/-- A packet that cannot be read ends the parse. -/
theorem verifyCallback_error (blake3 : Hash) (before : VerifyState) (packet : Packet)
    (unread : scannable packet = false) :
    ∃ error, verifyCallback blake3 before packet.type packet.body packet.bodyLen packet.header =
      .error error := by
  unfold scannable at unread
  unfold verifyCallback
  cases kind : packet.type with
  | START =>
    rw [kind] at unread
    have short := of_decide_eq_false unread
    refine ⟨.rangeError, ?_⟩
    simp only [readStart_eq, if_neg short]
    rfl
  | CAUCHY =>
    rw [kind] at unread
    have short := of_decide_eq_false unread
    refine ⟨.rangeError, ?_⟩
    simp only [readVerifyMatrix_eq, readMatrix_eq, if_neg short]
    rfl
  | MATRIX =>
    rw [kind] at unread
    have short := of_decide_eq_false unread
    refine ⟨.rangeError, ?_⟩
    simp only [readVerifyMatrix_eq, readMatrix_eq, if_neg short]
    rfl
  | DATA =>
    rw [kind] at unread
    have short := of_decide_eq_false unread
    refine ⟨.rangeError, ?_⟩
    simp only [readUInt64LE, Nat.zero_add, if_neg short]
    rfl
  | RECOVERY =>
    rw [kind] at unread
    by_cases first : 0 + 8 ≤ packet.body.length
    · by_cases second : 8 + 8 ≤ packet.body.length
      · have infinite : 2 ^ 53 < uint64At packet.body 8 := by
          by_contra finite
          have both : (decide (16 ≤ packet.body.length) &&
              decide (uint64At packet.body 8 ≤ 2 ^ 53)) = true := by
            rw [decide_eq_true second, decide_eq_true (Nat.not_lt.mp finite)]
            rfl
          rw [both] at unread
          cases unread
        refine ⟨.diverges, ?_⟩
        simp only [readUInt64LE, if_pos first, if_pos second, orThrow, bind, Except.bind,
          if_pos infinite]
      · refine ⟨.rangeError, ?_⟩
        simp only [readUInt64LE, if_pos first, if_neg second, orThrow, bind, Except.bind]
    · refine ⟨.rangeError, ?_⟩
      simp only [readUInt64LE, if_neg first, orThrow, bind, Except.bind]
  | _ => simp [kind] at unread

/-- What is read off the last value that is set. -/
theorem lastOf_map {α β : Type*} (set : Packet → Option α) (f : α → β) (packets : List Packet)
    (before : Option α) :
    lastOf (fun packet => (set packet).map f) packets (before.map f) =
      (lastOf set packets before).map f := by
  induction packets generalizing before with
  | nil => rfl
  | cons packet later ih =>
    rw [lastOf_cons, lastOf_cons, ← ih]
    cases set packet <;> rfl

/-- A value that the last of the others determines, when it does so. -/
theorem lastOf_bind {α β : Type*} {set : Packet → Option α} (f : α → Option β)
    {packets : List Packet} {before : Option α} {value : α} {result : β}
    (last : lastOf set packets before = some value) (determined : f value = some result)
    (otherwise : Option β) (initial : before = some value → otherwise = some result) :
    lastOf (fun packet => (set packet).bind f) packets otherwise = some result := by
  induction packets generalizing before otherwise with
  | nil => exact initial last
  | cons packet later ih =>
    rw [lastOf_cons] at last ⊢
    refine ih last _ fun here => ?_
    cases found : set packet with
    | none =>
      rw [found] at here
      rw [Option.bind_none, Option.none_or]
      exact initial here
    | some other =>
      rw [found, Option.some_or] at here
      obtain rfl := Option.some.inj here
      rw [Option.bind_some, determined, Option.some_or]

theorem counted_cons (packet : Packet) (later : List Packet) (before : VerifyState) :
    counted later (counted [packet] before) = counted (packet :: later) before := by
  have kept (value : Option ℤ) (default : ℤ) :
      some ((value.or (some default)).getD 0) = value.or (some default) := by
    cases value <;> rfl
  simp only [counted, lastOf_cons, lastOf_nil, kept, VerifyState.mk.injEq, true_and, and_true]
  constructor
  · rw [List.append_assoc, ← List.filterMap_append]
    rfl
  · rw [List.append_assoc, ← List.flatMap_append]
    rfl

/-- The whole scan: its closed form, or an error at the first packet that cannot be read. -/
theorem foldlM_verifyCallback (blake3 : Hash) (packets : List Packet) (before : VerifyState) :
    (packets.all scannable = true →
      packets.foldlM (fun state packet => verifyCallback blake3 state packet.type packet.body
        packet.bodyLen packet.header) before = .ok (counted packets before)) ∧
    (packets.all scannable = false → ∃ error,
      packets.foldlM (fun state packet => verifyCallback blake3 state packet.type packet.body
        packet.bodyLen packet.header) before = .error error) := by
  induction packets generalizing before with
  | nil =>
    refine ⟨fun _ => ?_, by simp⟩
    simp [counted]
    rfl
  | cons packet later ih =>
    rw [List.foldlM_cons, List.all_cons]
    cases read : scannable packet with
    | false =>
      obtain ⟨error, failed⟩ := verifyCallback_error blake3 before packet read
      rw [failed]
      exact ⟨by simp, fun _ => ⟨error, rfl⟩⟩
    | true =>
      have rest := ih (counted [packet] before)
      rw [counted_cons] at rest
      rw [verifyCallback_ok blake3 before packet read]
      exact rest

/-! ## The report -/

/-- The number of recovery blocks verify expects. -/
def verifyRecoveryCount (file : Buffer) (matrix : MatrixPacket) : ℤ :=
  match matrix.recovery_count with
  | some count => count
  | none => ((packetsOf file).filterMap recoveryBlockOf).foldl
    (fun (sum : ℤ) rb => double (sum + (rb.block_count : ℤ))) 0

/-- The number of blocks verify expects. -/
def expectedBlocks (file : Buffer) (matrix : MatrixPacket) : ℤ :=
  double (matrix.inputCount + verifyRecoveryCount file matrix)

/-- The blocks that verify counts as present. -/
def countedBlocks (file : Buffer) : List ℕ := (packetsOf file).flatMap presentBlocks

/-- The blocks that verify lists as missing. -/
def uncountedBlocks (file : Buffer) (matrix : MatrixPacket) : List ℕ :=
  (List.range (expectedBlocks file matrix).toNat).filter fun i => !(countedBlocks file).contains i

/-- The files that verify has a report for, with their last parameters. -/
structure Reports (file : Buffer) (startPacket : StartPacket) (matrix : MatrixPacket) : Prop where
  scanned : (packetsOf file).all scannable = true
  whole : (leftoverOf file).length = 0
  start : lastOf startOf (packetsOf file) none = some startPacket
  parameters : lastOf matrixOf (packetsOf file) none = some matrix
  declared : matrix.recovery_count ≠ some 0
  finite : expectedBlocks file matrix ≤ 2 ^ 53

/-- Verify reports on exactly these files, and this is its report. -/
theorem par3_verify_ok_iff (blake3 : Hash) (file : Buffer) (report : VerifyReport) :
    par3_verify blake3 file = .ok report ↔
      ∃ startPacket matrix, Reports file startPacket matrix ∧ report = {
        archiveOk := decide ((uncountedBlocks file matrix).length = 0)
        canRepair := decide (((uncountedBlocks file matrix).length : ℤ) ≤
          verifyRecoveryCount file matrix)
        inputBlocks := matrix.inputCount
        recoveryBlocks := verifyRecoveryCount file matrix
        missingBlockList := uncountedBlocks file matrix
        blockSize := startPacket.block_size } := by
  have parse : par3_parse_stream CHUNK_SIZE (verifyCallback blake3) (cut CHUNK_SIZE file) {} =
      match (packetsOf file).foldlM (fun state packet => verifyCallback blake3 state packet.type
        packet.body packet.bodyLen packet.header) {} with
      | .error error => .error (.thrown error)
      | .ok state => if 0 < (leftoverOf file).length then .error .truncated else .ok state := by
    rw [par3_parse_stream, readChunk_cut]
    cases (packetsOf file).foldlM (fun state packet => verifyCallback blake3 state packet.type
      packet.body packet.bodyLen packet.header) {} <;> rfl
  have folded := foldlM_verifyCallback blake3 (packetsOf file) {}
  unfold par3_verify
  cases scanned : (packetsOf file).all scannable with
  | false =>
    obtain ⟨error, failed⟩ := folded.2 scanned
    rw [parse, failed]
    constructor
    · intro impossible
      cases impossible
    · rintro ⟨_, _, reports, _⟩
      rw [reports.scanned] at scanned
      cases scanned
  | true =>
    rw [parse, folded.1 scanned]
    by_cases cutOff : 0 < (leftoverOf file).length
    · simp only [if_pos cutOff]
      constructor
      · intro impossible
        cases impossible
      · rintro ⟨_, _, reports, _⟩
        have whole := reports.whole
        omega
    · have parameters := lastOf_map matrixOf MatrixPacket.forVerify (packetsOf file) none
      rw [Option.map_none] at parameters
      simp only [if_neg cutOff, counted, List.nil_append, parameters]
      cases start : lastOf startOf (packetsOf file) none with
      | none =>
        constructor
        · intro impossible
          cases impossible
        · rintro ⟨_, _, reports, _⟩
          rw [reports.start] at start
          cases start
      | some startPacket =>
        cases last : lastOf matrixOf (packetsOf file) none with
        | none =>
          constructor
          · intro impossible
            cases impossible
          · rintro ⟨_, _, reports, _⟩
            rw [reports.parameters] at last
            cases last
        | some matrix =>
          have unique {otherStart : StartPacket} {otherMatrix : MatrixPacket}
              (reports : Reports file otherStart otherMatrix) :
              otherStart = startPacket ∧ otherMatrix = matrix :=
            ⟨Option.some.inj (reports.start.symm.trans start),
              Option.some.inj (reports.parameters.symm.trans last)⟩
          have inputs : lastOf (fun packet => (matrixOf packet).map MatrixPacket.inputCount)
              (packetsOf file) (some 0) = some matrix.inputCount := by
            simp only [Option.map_eq_bind]
            exact lastOf_bind (some ∘ MatrixPacket.inputCount) last rfl _ (fun impossible => by cases impossible)
          have count : (match matrix.recovery_count with
              | some _ => (lastOf (fun packet => ((matrixOf packet).bind
                  MatrixPacket.recovery_count).map Nat.cast) (packetsOf file) (some 0)).getD 0
              | none => ((packetsOf file).filterMap recoveryBlockOf).foldl
                (fun (sum : ℤ) rb => double (sum + (rb.block_count : ℤ))) 0) =
              verifyRecoveryCount file matrix := by
            unfold verifyRecoveryCount
            cases declared : matrix.recovery_count with
            | none => rfl
            | some count =>
              have counts : lastOf (fun packet => (matrixOf packet).bind
                  fun matrix => matrix.recovery_count.map Nat.cast) (packetsOf file) (some 0) =
                  some (count : ℤ) :=
                lastOf_bind _ last (by rw [declared]; rfl) _ (fun impossible => by cases impossible)
              simp only [Option.map_bind, Function.comp_def, counts, Option.getD_some]
          have kept : matrix.forVerify.recovery_count = matrix.recovery_count := rfl
          simp only [Option.map_some, kept, inputs, count, Option.getD_some]
          by_cases declared : matrix.recovery_count = some 0
          · rw [if_pos declared]
            constructor
            · intro impossible
              cases impossible
            · rintro ⟨_, _, reports, _⟩
              rw [(unique reports).2] at reports
              exact absurd declared reports.declared
          · rw [if_neg declared]
            by_cases large : 2 ^ 53 < double (matrix.inputCount + verifyRecoveryCount file matrix)
            · rw [if_pos large]
              constructor
              · intro impossible
                cases impossible
              · rintro ⟨_, _, reports, _⟩
                rw [(unique reports).2] at reports
                exact absurd large (not_lt.mpr reports.finite)
            · rw [if_neg large]
              constructor
              · intro success
                obtain rfl := Except.ok.inj success
                exact ⟨startPacket, matrix, ⟨scanned, by omega, start, last, declared,
                  not_lt.mp large⟩, rfl⟩
              · rintro ⟨_, _, reports, rfl⟩
                obtain ⟨rfl, rfl⟩ := unique reports
                rfl

end Par3
