import Par3.RepairContract
import Par3.Verify

/-!
# The parameters in START and CAU packets

Create writes the index of the last input, and the readers add one to get a count. The index of
the last of no inputs is written as zero, so an archive of no blocks is read as one of one block.
-/

namespace Par3

/-- What creating and reading an archive have to agree on. -/
structure CodeParameters where
  blockSize : ℕ
  inputBlocks : ℤ
  firstInput : ℕ
  firstRecovery : ℕ
  recoveryBlocks : ℤ
deriving DecidableEq

/-- The parameters that create computes recovery blocks with. -/
def Archive.parameters (archive : Archive) : CodeParameters where
  blockSize := archive.blockSize
  inputBlocks := archive.totalBlocks
  firstInput := 0
  firstRecovery := archive.totalBlocks
  recoveryBlocks := archive.recoverySlices

/-- The parameters that the first pass of repair has read. -/
def Pass1State.parameters (repairState : Pass1State) : Option CodeParameters := do
  let startPacket ← repairState.startPacket
  let matrix ← repairState.matrix
  return {
    blockSize := startPacket.block_size
    inputBlocks := matrix.inputCount
    firstInput := matrix.first_input
    firstRecovery := matrix.first_recovery
    recoveryBlocks := totalRecoveryBlocks matrix repairState.recoveryOffsets }

/-- The parameters that verify has read. -/
def VerifyState.parameters (verifyState : VerifyState) : Option CodeParameters := do
  let startPacket ← verifyState.startPacket
  let matrix ← verifyState.matrix
  return {
    blockSize := startPacket.block_size
    inputBlocks := verifyState.inputCount
    firstInput := matrix.first_input
    firstRecovery := matrix.first_recovery
    recoveryBlocks := verifyState.recoveryCount }

/-- The parameters that both readers get from packets. -/
def readParameters (blake3 : Hash) (packets : List Packet) :
    Option CodeParameters × Option CodeParameters :=
  ((packets.foldlM (pass1Callback blake3) {}).toOption.bind Pass1State.parameters,
    (packets.foldlM (fun verifyState packet => verifyCallback blake3 verifyState packet.type
      packet.body packet.bodyLen packet.header) {}).toOption.bind VerifyState.parameters)

namespace Archive

variable (archive : Archive) (blake3 : Hash) (start matrix : Packet)

/-- The parameters with the count that the readers derive. -/
def readBack : CodeParameters := { archive.parameters with
  inputBlocks := archive.matrixPacket.inputCount }

section Packets

variable {start matrix} (startType : start.type = .START) (startBody : start.body = archive.startBody)
  (matrixType : matrix.type = .CAUCHY) (matrixBody : matrix.body = archive.matrixBody)

include startType startBody matrixType matrixBody

/-- Both readers get everything but the count of inputs as it was written, whichever packet comes
first. -/
theorem readParameters_packets :
    readParameters blake3 [start, matrix] = (some archive.readBack, some archive.readBack) ∧
      readParameters blake3 [matrix, start] = (some archive.readBack, some archive.readBack) := by
  constructor
  · simp only [readParameters, List.foldlM_cons, List.foldlM_nil, pass1Callback, verifyCallback,
      startType, startBody, matrixType, matrixBody, archive.readStart_startBody,
      archive.readMatrix_matrixBody, readVerifyMatrix_eq]
    rfl
  · simp only [readParameters, List.foldlM_cons, List.foldlM_nil, pass1Callback, verifyCallback,
      startType, startBody, matrixType, matrixBody, archive.readStart_startBody,
      archive.readMatrix_matrixBody, readVerifyMatrix_eq]
    rfl

/-- Both readers get the parameters that create used, in either order of the packets, exactly where
there is an input block: the range of input numbers cannot say that there is none. -/
theorem parameters_read_iff :
    readParameters blake3 [start, matrix] = (some archive.parameters, some archive.parameters) ∧
        readParameters blake3 [matrix, start] =
          (some archive.parameters, some archive.parameters) ↔
      0 < archive.totalBlocks := by
  obtain ⟨first, second⟩ :=
    archive.readParameters_packets blake3 startType startBody matrixType matrixBody
  rw [first, second]
  constructor
  · rintro ⟨same, -⟩
    by_contra none_there
    have empty : archive.totalBlocks = 0 := Nat.eq_zero_of_not_pos none_there
    have counts := congrArg CodeParameters.inputBlocks
      (Option.some.inj (congrArg Prod.fst same))
    have one : archive.matrixPacket.inputCount = 1 := by
      simp [MatrixPacket.inputCount, Archive.matrixPacket, empty, double]
      decide
    simp only [readBack, parameters, one, empty] at counts
    exact absurd counts (by decide)
  · intro nonempty
    have same : archive.readBack = archive.parameters := by
      rw [readBack, Damage.inputCount_eq archive nonempty]
      rfl
    rw [same]
    exact ⟨rfl, rfl⟩

end Packets

theorem noFiles_names : ∀ file ∈ ([] : List SourceFile),
    file.name.length < 2 ^ 16 ∧ file.fileId.length = 16 :=
  List.forall_mem_nil _

theorem noFiles_count : ([] : List SourceFile).length < 2 ^ 32 := by decide

theorem noFiles_blocks :
    (([] : List SourceFile).map (SourceFile.blockCount oneBlock.blockSize)).sum ≤ 0x7FFFFFFF :=
  Nat.zero_le _

theorem oneRow_small : 1 < 2 ^ 32 := by decide

/-- An archive without input blocks and with one recovery block. -/
def withoutBlocks : Archive :=
  { oneBlock with
    files := []
    recoverySlices := 1
    names_small := noFiles_names
    files_small := noFiles_count
    totalBlocks_small := noFiles_blocks
    recoverySlices_small := oneRow_small }

/-- A packet of an archive as the parser reports it. -/
def reportedPacket (type : PacketType) (body : Buffer) : Packet where
  type := type
  body := body
  bodyLen := body.length
  absBodyOffset := 48
  header := []

theorem parameters_read_iff_without :
    readParameters byteSum [reportedPacket .START withoutBlocks.startBody,
        reportedPacket .CAUCHY withoutBlocks.matrixBody] =
        (some withoutBlocks.parameters, some withoutBlocks.parameters) ∧
      readParameters byteSum [reportedPacket .CAUCHY withoutBlocks.matrixBody,
        reportedPacket .START withoutBlocks.startBody] =
        (some withoutBlocks.parameters, some withoutBlocks.parameters) ↔
      0 < withoutBlocks.totalBlocks :=
  withoutBlocks.parameters_read_iff byteSum rfl rfl rfl rfl

/-- No blocks are read as one. -/
theorem no_blocks_read_as_one :
    withoutBlocks.parameters.inputBlocks = 0 ∧
      ((readParameters byteSum [reportedPacket .START withoutBlocks.startBody,
        reportedPacket .CAUCHY withoutBlocks.matrixBody]).1.map CodeParameters.inputBlocks,
        (readParameters byteSum [reportedPacket .START withoutBlocks.startBody,
          reportedPacket .CAUCHY withoutBlocks.matrixBody]).2.map CodeParameters.inputBlocks) =
        (some 1, some 1) := by
  decide +kernel

end Archive

end Par3
