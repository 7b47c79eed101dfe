import Par3.ParseStream
import Par3.Archive
import Par3.Solver

/-!
# Repair

Repair reads the archive twice. The first pass records the parameters from START and
matrix packets and the file offsets of the blocks in DATA and RECOVERY packets whose
checksum matches. The second pass reads one block size of bytes at each recorded offset.
From the map of available blocks it lists the missing indices, inputs and recovery blocks
alike, builds a square system whose equations are the first rows of the code, and solves it.

Numbers are doubles in the source; integers are rounded where the source adds or subtracts
them. Memory is not limited here, and input and output errors are left out.
-/

namespace Par3

/-! ## Numbers and reads -/

/-- Integer addition of doubles. -/
def double (value : ℤ) : ℤ := value.sign * roundDouble value.natAbs

theorem double_natCast_eq (value : ℕ) : double (value : ℤ) = roundDouble value := by
  unfold double
  rw [Int.natAbs_natCast]
  rcases Nat.eq_zero_or_pos value with zero | pos
  · subst zero
    rw [roundDouble_of_lt 0 (by norm_num)]
    rfl
  · rw [Int.sign_natCast_of_ne_zero pos.ne', one_mul]

theorem double_natCast (value : ℕ) (small : value < 2 ^ 53) : double (value : ℤ) = value := by
  rw [double_natCast_eq, roundDouble_of_lt value small]

/-- What a thrown exception or a loop that never ends is reported as. -/
inductive CallbackError where
  | rangeError
  | diverges
deriving DecidableEq

/-- A read outside a buffer throws. -/
def orThrow {α : Type*} : Option α → Except CallbackError α
  | some value => .ok value
  | none => .error .rangeError

/-- The body fields of a START packet. -/
structure StartPacket where
  gf_size : UInt8
  block_size : ℕ
  block_pow : ℕ
deriving DecidableEq

/-- The body fields of a matrix packet. Short bodies leave the later fields undefined. -/
structure MatrixPacket where
  first_input : ℕ
  last_input : ℕ
  first_recovery : ℕ
  recovery_count : Option ℕ
  rows : Option ℕ
  cols : Option ℕ
deriving DecidableEq

/-- Read a START body. -/
def readStart (body : Buffer) : Except CallbackError StartPacket := do
  let block_size ← orThrow (readUInt64LE body 16)
  let block_pow ← orThrow (readUInt32LE body 24)
  return { gf_size := body.getD 0 0, block_size, block_pow }

/-- Read a CAUCHY or MATRIX body. -/
def readMatrix (body : Buffer) : Except CallbackError MatrixPacket := do
  let first_input ← orThrow (readUInt64LE body 0)
  let last_input ← orThrow (readUInt64LE body 8)
  let first_recovery ← orThrow (readUInt64LE body 16)
  return {
    first_input, last_input, first_recovery
    recovery_count := if 32 ≤ body.length then readUInt64LE body 24 else none
    rows := if 40 ≤ body.length then readUInt32LE body 32 else none
    cols := if 40 ≤ body.length then readUInt32LE body 36 else none }

/-- `last_input - first_input + 1`. -/
def MatrixPacket.inputCount (matrix : MatrixPacket) : ℤ :=
  double (double (matrix.last_input - matrix.first_input) + 1)

/-! ## The first pass -/

structure DataOffset where
  block_index : ℕ
  fileOffset : ℕ
deriving DecidableEq

structure RecoveryOffset where
  first_block : ℕ
  block_count : ℕ
  fileOffset : ℕ
deriving DecidableEq

/-- The part of `repairState` that the first pass fills. -/
structure Pass1State where
  startPacket : Option StartPacket := none
  matrix : Option MatrixPacket := none
  dataBlockOffsets : List DataOffset := []
  recoveryOffsets : List RecoveryOffset := []
deriving DecidableEq

/-- `pass1Callback`: parameters are taken from any packet, blocks only from those whose
checksum matches. -/
def pass1Callback (blake3 : Hash) (repairState : Pass1State) (packet : Packet) :
    Except CallbackError Pass1State := do
  let checksumValid := validatePacketChecksum blake3 packet.header packet.body
  match packet.type with
  | .START =>
    let startPacket ← readStart packet.body
    return { repairState with startPacket := some startPacket }
  | .CAUCHY | .MATRIX =>
    let matrix ← readMatrix packet.body
    return { repairState with matrix := some matrix }
  | .DATA =>
    if !checksumValid then
      return repairState
    let block_index ← orThrow (readUInt64LE packet.body 0)
    let entry : DataOffset := { block_index, fileOffset := packet.absBodyOffset + 8 }
    return { repairState with dataBlockOffsets := repairState.dataBlockOffsets ++ [entry] }
  | .RECOVERY =>
    if !checksumValid then
      return repairState
    let block_count ← orThrow (readUInt64LE packet.body 8)
    let first_block ← orThrow (readUInt64LE packet.body 0)
    let entry : RecoveryOffset :=
      { first_block, block_count, fileOffset := packet.absBodyOffset + 16 }
    return { repairState with recoveryOffsets := repairState.recoveryOffsets ++ [entry] }
  | _ => return repairState

/-! ## The second pass -/

/-- The environment of a repair: whether the native binding is loaded, whether its matrix
build and the coupled kernels are switched off, and what a fresh buffer holds. -/
structure Backend where
  native : Bool
  nativeMatrix : Bool
  coupledRhs : Bool
  fresh : ℕ → ℕ → UInt8

/-- An uninitialised buffer. -/
def Backend.allocBuffer (backend : Backend) (length : ℕ) : Buffer :=
  (List.range length).map (backend.fresh length)

/-- A read of the file at a position, cut off at its end. -/
def readAt (file : Buffer) (length position : ℕ) : Buffer := (file.drop position).take length

/-- Copy as much of the source as fits behind an offset. -/
def copyInto (target source : Buffer) (offset : ℕ) : Buffer :=
  target.take offset ++ source.take (target.length - offset) ++
    target.drop (offset + source.length)

structure DataBlock where
  block_index : ℕ
  data : Buffer
deriving DecidableEq

structure RecoveryData where
  first_block : ℕ
  block_count : ℕ
  data : Buffer
deriving DecidableEq

/-- Read one block size of bytes at each recorded offset. The bytes are those of the file,
also behind the end of a short packet. -/
def readDataBlocks (file : Buffer) (blockSize : ℕ) (offsets : List DataOffset) : List DataBlock :=
  offsets.map fun entry =>
    { block_index := entry.block_index, data := readAt file blockSize entry.fileOffset }

/-- Recovery data is read in a buffer of full length, whatever the read returns. -/
def readRecoveryData (backend : Backend) (file : Buffer) (blockSize : ℕ)
    (offsets : List RecoveryOffset) : List RecoveryData :=
  offsets.map fun entry =>
    let recDataLen := entry.block_count * blockSize
    { first_block := entry.first_block
      block_count := entry.block_count
      data := copyInto (backend.allocBuffer recDataLen) (readAt file recDataLen entry.fileOffset)
        0 }

/-- A JavaScript object indexed by block number. -/
abbrev BlockMap := ℕ → Option Buffer

def BlockMap.set (map : BlockMap) (index : ℕ) (data : Buffer) : BlockMap :=
  fun other => if other = index then some data else map other

/-- `availableMap`: later entries replace earlier ones, recovery blocks come last. -/
def buildAvailableMap (blockSize : ℕ) (dataBlocks : List DataBlock)
    (recoveryData : List RecoveryData) : BlockMap :=
  let inputs : BlockMap := dataBlocks.foldl (fun map block => map.set block.block_index block.data)
    fun _ => none
  recoveryData.foldl
    (fun map rec => (List.range rec.block_count).foldl
      (fun map bi => map.set (double (rec.first_block + (bi : ℕ))).toNat
        (slice rec.data (bi * blockSize) ((bi + 1) * blockSize)))
      map)
    inputs

/-- `missingBlocks`: every index below the total without an entry. -/
def missingBlocks (available : BlockMap) (totalBlocks : ℕ) : List ℕ :=
  (List.range totalBlocks).filter fun index => (available index).isNone

/-! ## The system -/

/-- The entry cap of the native matrix and of the coefficient block. -/
def REPAIR_COEFF_MATRIX_MAX_ENTRIES : ℕ := 32 * 1024 * 1024

/-- `repairNativeMatrixAllowed`: something to build, disjoint ranges, a bounded footprint. -/
def repairNativeMatrixAllowed (totalInputs : ℤ) (n firstInp firstRec capEntries : ℕ) : Bool :=
  if n ≤ 0 ∨ totalInputs ≤ 0 then false
  else if firstInp < double (firstRec + n) ∧ firstRec < double (firstInp + totalInputs) then false
  else if capEntries < n * totalInputs then false
  else true

/-- A number passed as a 64-bit integer saturates. -/
def int64Argument (value : ℕ) : ℕ := min value (2 ^ 63 - 1)

/-- One entry of the native matrix, a flat buffer of `n` rows with `totalInputs` entries. Reads
behind its end throw. -/
def readNativeMatrix (totalInputs n firstInp firstRec index : ℕ) : Option Gf64 :=
  if index < n * totalInputs then
    some (cauchyCoefficient (int64Argument firstInp) (int64Argument firstRec)
      (index / totalInputs) (index % totalInputs))
  else none

/-- The coefficient of the JavaScript fallback for the matrix: indices are added as doubles. -/
def fallbackCoefficient (firstInp firstRec eq missingIdx : ℕ) : Gf64 :=
  let xi := (double (firstRec + eq)).toNat
  let yj := (double (firstInp + missingIdx)).toNat
  if xi = yj then 1 else (gf64OfNat (xi ^^^ yj))⁻¹

/-- `cauchyCoeff`: the coefficient of a known input, with indices added exactly. -/
def cauchyCoeff (nativeM : Option (ℕ → Option Gf64)) (totalInputs firstInp firstRec inputIdx eq : ℕ) :
    Option Gf64 :=
  match nativeM with
  | some matrix => matrix (eq * totalInputs + inputIdx)
  | none =>
    if firstInp + inputIdx = firstRec + eq then some 1
    else some (gf64OfNat ((firstInp + inputIdx) ^^^ (firstRec + eq)))⁻¹

/-! ## The right-hand side -/

/-- `rhsBlocks` before the known inputs are subtracted: the recovery block recorded under the
equation's own index, or zeros when there is none. -/
def initialRhs (backend : Backend) (recByIdx : BlockMap) (n firstRec blockSize : ℕ) : Buffer :=
  (List.range n).foldl
    (fun rhsBlocks eq =>
      match recByIdx (double (firstRec + (eq : ℕ))).toNat with
      | some recData => copyInto rhsBlocks recData (eq * blockSize)
      | none => copyInto rhsBlocks (List.replicate blockSize 0) (eq * blockSize))
    (backend.allocBuffer (n * blockSize))

/-- The JavaScript coupled kernel skips zero coefficients and zero words. -/
def coupled_muladd_arr (out : Words) (in_blocks : ℕ → Words) (coeff_buf : ℕ → Gf64)
    (len_words G : ℕ) : Words :=
  (List.range G).foldl
    (fun out g i =>
      if i < len_words ∧ coeff_buf g ≠ 0 ∧ in_blocks g i ≠ 0 then
        out i + in_blocks g i * coeff_buf g
      else out i)
    out

/-- The legacy loop: the known inputs outside, the equations inside, a product buffer each. -/
def legacyRhs (rhs : ℕ → Words) (n : ℕ) (known : ℕ → Words) (knownCount : ℕ)
    (coeff : ℕ → ℕ → Gf64) (numWords : ℕ) : ℕ → Words :=
  (List.range knownCount).foldl
    (fun rhs ai eq w =>
      if eq < n ∧ w < numWords then
        rhs eq w + gf64_region_mul_arr (fun _ => 0) (known ai) (fun _ => coeff eq ai) numWords 1 w
      else rhs eq w)
    rhs

/-- `canUseTwoDRhs`. -/
def canUseTwoDRhs (backend : Backend) (n knownCount : ℕ) : Bool :=
  backend.native && decide (knownCount ≤ 65536) && decide (n ≤ 65536) &&
    decide (n * knownCount ≤ REPAIR_COEFF_MATRIX_MAX_ENTRIES) && backend.coupledRhs

/-- Subtract the known inputs from the right-hand side on the path the environment selects. -/
def subtractKnown (backend : Backend) (rhs : ℕ → Words) (n : ℕ) (known : ℕ → Words)
    (knownCount : ℕ) (coeff : ℕ → ℕ → Gf64) (numWords : ℕ) : ℕ → Words :=
  if canUseTwoDRhs backend n knownCount then
    gf64_region_2d_muladd_arr rhs n known knownCount
      (fun flat => coeff (flat / knownCount) (flat % knownCount)) knownCount numWords
  else if backend.coupledRhs then
    fun eq =>
      if n ≤ eq then rhs eq
      else if backend.native && decide (knownCount ≤ 65536) then
        gf64_region_coupled_muladd_arr (rhs eq) known (coeff eq) numWords knownCount
      else coupled_muladd_arr (rhs eq) known (coeff eq) numWords knownCount
  else legacyRhs rhs n known knownCount coeff numWords

/-! ## The whole repair -/

/-- Why a repair fails. The last two stand for a loop that never ends and for a native read
behind a buffer. -/
inductive RepairError where
  | parse (error : ParseError CallbackError)
  | noStart
  | noMatrix
  | tooManyMissing (missing totalRecovery : ℕ)
  | notEnoughRecovery (available missing : ℕ)
  | repairFailed
  | singular
  | diverges
  | outOfBounds
deriving DecidableEq

/-- The texts the callback receives. -/
def RepairError.message : RepairError → String
  | parse _ => "Failed to parse PAR3 file: "
  | noStart => "No Start packet found"
  | noMatrix => "No Matrix packet found"
  | tooManyMissing missing totalRecovery =>
    "Cannot repair: too many missing blocks (" ++ toString missing ++ " > " ++
      toString totalRecovery ++ ")"
  | notEnoughRecovery available missing =>
    "Not enough recovery blocks (" ++ toString available ++ ") to repair " ++ toString missing ++
      " missing blocks"
  | repairFailed => "Repair failed: "
  | singular => "Singular matrix - cannot solve"
  | diverges => ""
  | outOfBounds => ""

/-- What a successful repair reports and writes: the numbered block files, and the blocks
that are written to `block_0.dat` one behind the other. -/
structure RepairResult where
  blocksRepaired : ℕ
  missingBlockList : List ℕ
  recoveryBlockList : List (ℕ × ℕ)
  matrixInfo : MatrixPacket
  usedNativeMatrix : Bool
  blockFiles : List (ℕ × Buffer)
  blocks : List Buffer
deriving DecidableEq

/-- The contents of `block_0.dat`. -/
def RepairResult.outputFile (result : RepairResult) : Buffer := result.blocks.flatten

/-- The state between the second pass and the decision what to do. -/
structure RepairState where
  startPacket : StartPacket
  matrix : MatrixPacket
  totalInputBlocks : ℤ
  totalRecoveryBlocks : ℤ
  dataBlocks : List DataBlock
  recoveryData : List RecoveryData
deriving DecidableEq

/-- `totalRecoveryBlocks`: the declared count, or the sum of the counts in the packets. -/
def totalRecoveryBlocks (matrix : MatrixPacket) (offsets : List RecoveryOffset) : ℤ :=
  match matrix.recovery_count with
  | some count => count
  | none => offsets.foldl (fun (sum : ℤ) entry => double (sum + (entry.block_count : ℤ))) 0

/-- Both passes over the file. DATA offsets are sorted by block index before they are read. -/
def readArchive (blake3 : Hash) (backend : Backend) (file : Buffer) :
    Except RepairError RepairState :=
  match par3_parse_stream_pass1 CHUNK_SIZE (pass1Callback blake3) (cut CHUNK_SIZE file) {} with
  | .error error => .error (.parse error)
  | .ok pass1 =>
    match pass1.startPacket, pass1.matrix with
    | none, _ => .error .noStart
    | _, none => .error .noMatrix
    | some startPacket, some matrix =>
      let sorted := pass1.dataBlockOffsets.mergeSort fun a b =>
        decide (a.block_index ≤ b.block_index)
      .ok {
        startPacket, matrix
        totalInputBlocks := matrix.inputCount
        totalRecoveryBlocks := totalRecoveryBlocks matrix pass1.recoveryOffsets
        dataBlocks := readDataBlocks file startPacket.block_size sorted
        recoveryData :=
          readRecoveryData backend file startPacket.block_size pass1.recoveryOffsets }

/-- The recovery packets of the result. -/
def RepairState.recoveryBlockList (state : RepairState) : List (ℕ × ℕ) :=
  state.recoveryData.map fun rec => (rec.first_block, rec.block_count)

/-- `recByIdx`: recovery data by its first block index. -/
def RepairState.recByIdx (state : RepairState) : BlockMap :=
  state.recoveryData.foldl (fun map rec => map.set rec.first_block rec.data) fun _ => none

/-- `nativeM`: the matrix of all inputs and `n` equations, when the binding builds it. -/
def RepairState.nativeM (backend : Backend) (state : RepairState) (n : ℕ) :
    Option (ℕ → Option Gf64) :=
  if backend.native && backend.nativeMatrix &&
      repairNativeMatrixAllowed state.totalInputBlocks n state.matrix.first_input
        state.matrix.first_recovery REPAIR_COEFF_MATRIX_MAX_ENTRIES then
    some (readNativeMatrix state.totalInputBlocks.toNat n state.matrix.first_input
      state.matrix.first_recovery)
  else none

/-- The entry of `A` for an equation and a missing index. -/
def RepairState.coefficientOf (state : RepairState) (nativeM : Option (ℕ → Option Gf64))
    (eq missingIdx : ℕ) : Option Gf64 :=
  match nativeM with
  | some matrix => matrix (eq * state.totalInputBlocks.toNat + missingIdx)
  | none =>
    some (fallbackCoefficient state.matrix.first_input state.matrix.first_recovery eq missingIdx)

/-- `knownInputIndices`: the inputs that have an entry and are not missing. -/
def RepairState.knownInputIndices (state : RepairState) (available : BlockMap) (missing : List ℕ) :
    List ℕ :=
  (List.range state.totalInputBlocks.toNat).filter fun index =>
    !missing.contains index && (available index).isSome

/-- The right-hand sides that are solved for: the recovery blocks minus the known inputs. -/
def RepairState.rhs (backend : Backend) (state : RepairState) (available : BlockMap) (n : ℕ)
    (known : List ℕ) : ℕ → Words :=
  let blockSize := state.startPacket.block_size
  let rhsBlocks := initialRhs backend state.recByIdx n state.matrix.first_recovery blockSize
  subtractKnown backend
    (fun eq => wordAt (slice rhsBlocks (eq * blockSize) ((eq + 1) * blockSize))) n
    (fun index => wordAt ((available (known.getD index 0)).getD [])) known.length
    (fun eq index =>
      (cauchyCoeff (state.nativeM backend n) state.totalInputBlocks.toNat state.matrix.first_input
        state.matrix.first_recovery (known.getD index 0) eq).getD 0)
    (blockSize / 8)

/-- Write the reconstructed blocks, and with them the whole of `block_0.dat`. -/
def RepairState.writeBlocks (backend : Backend) (state : RepairState) (available : BlockMap)
    (missing : List ℕ) (solution : Fin missing.length → Words) : RepairResult :=
  let blockFiles := (List.finRange missing.length).map fun row =>
    (missing.get row, ofWords (state.startPacket.block_size / 8) (solution row))
  let repaired : BlockMap :=
    blockFiles.foldl (fun map block => map.set block.1 block.2) available
  { blocksRepaired := missing.length
    missingBlockList := missing
    recoveryBlockList := state.recoveryBlockList
    matrixInfo := state.matrix
    usedNativeMatrix := (state.nativeM backend missing.length).isSome
    blockFiles
    blocks := (List.range state.totalInputBlocks.toNat).map fun index =>
      (repaired index).getD [] }

/-- Reconstruct the missing blocks and write them. -/
def reconstruct (backend : Backend) (state : RepairState) (available : BlockMap)
    (missing : List ℕ) : Except RepairError RepairResult :=
  let n := missing.length
  let blockSize := state.startPacket.block_size
  let entry := state.coefficientOf (state.nativeM backend n)
  let known := state.knownInputIndices available missing
  -- A matrix entry behind the end of the native matrix throws a range error.
  if (List.range n).any fun eq => missing.any fun index => (entry eq index).isNone then
    .error .repairFailed
  -- The solvers refuse a block size that is not a positive multiple of eight.
  else if blockSize % 8 ≠ 0 ∨ blockSize = 0 then
    .error (if backend.native ∨ (known ≠ [] ∧ blockSize ≠ 0) then .repairFailed else .singular)
  -- A block that was cut off by the end of the file is too short for the kernels.
  else if known.any fun index => decide (((available index).getD []).length < blockSize) then
    .error (if backend.native && backend.coupledRhs && decide (known.length ≤ 65536) then
      .outOfBounds else .repairFailed)
  else
    let A : Matrix (Fin n) (Fin n) Gf64 := fun eq col => (entry eq (missing.get col)).getD 0
    match SolveAndReconstruct A fun eq => state.rhs backend available n known eq with
    | none => .error .singular
    | some solution => .ok (state.writeBlocks backend available missing solution)

/-- `par3_repair`. Without missing blocks the DATA blocks are written as they were read. -/
def par3_repair (blake3 : Hash) (backend : Backend) (file : Buffer) :
    Except RepairError RepairResult :=
  match readArchive blake3 backend file with
  | .error error => .error error
  | .ok state =>
    let totalBlocks := double (state.totalInputBlocks + state.totalRecoveryBlocks)
    -- Loop counters stop growing at the first integer that is followed by a gap.
    if 2 ^ 53 < totalBlocks ∨ state.recoveryData.any fun rec => decide (2 ^ 53 < rec.block_count) then
      .error .diverges
    else
      let available := buildAvailableMap state.startPacket.block_size state.dataBlocks
        state.recoveryData
      let missing := missingBlocks available totalBlocks.toNat
      if missing.length = 0 then
        .ok {
          blocksRepaired := state.dataBlocks.length
          missingBlockList := []
          recoveryBlockList := state.recoveryBlockList
          matrixInfo := state.matrix
          usedNativeMatrix := false
          blockFiles := []
          blocks := state.dataBlocks.map DataBlock.data }
      else if state.totalRecoveryBlocks < missing.length then
        .error (.tooManyMissing missing.length state.totalRecoveryBlocks.toNat)
      else if state.recoveryData.length < missing.length then
        .error (.notEnoughRecovery state.recoveryData.length missing.length)
      else reconstruct backend state available missing

end Par3
