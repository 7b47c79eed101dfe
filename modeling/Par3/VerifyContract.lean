import Par3.Verify
import Par3.RestoredFiles

/-!
# What verify promises

A report of verify is sound when every packet it has counted passes its checksum, and when an
archive it calls repairable is repaired with its original blocks. Verify and repair read the
same parameters. On a file whose counted packets are all valid they also list the same missing
blocks, so only what repair asks for beyond the count can make the promise fail. A counted
packet that fails its checksum breaks it at once.
-/

namespace Par3

/-! ## The two scanners -/

theorem foldl_set_isSome {γ : Type*} (list : List γ) (key : γ → ℕ) (value : γ → Buffer)
    (map : BlockMap) (index : ℕ) :
    (list.foldl (fun (map : BlockMap) entry => map.set (key entry) (value entry)) map
        index).isSome = true ↔
      (∃ entry ∈ list, key entry = index) ∨ (map index).isSome = true := by
  induction list generalizing map with
  | nil => simp
  | cons entry later ih =>
    rw [List.foldl_cons, ih, BlockMap.set]
    by_cases here : index = key entry
    · simp [here]
    · simp [if_neg here, Ne.symm here]

/-- Entries for recovery blocks are added to a map. -/
theorem foldl_recovery_isSome (blockSize : ℕ) (recoveryData : List RecoveryData) (map : BlockMap)
    (index : ℕ) :
    (recoveryData.foldl (fun map rec => (List.range rec.block_count).foldl
        (fun (map : BlockMap) bi => map.set (double (rec.first_block + (bi : ℕ))).toNat
          (slice rec.data (bi * blockSize) ((bi + 1) * blockSize))) map) map index).isSome = true ↔
      (map index).isSome = true ∨ ∃ rec ∈ recoveryData, ∃ bi < rec.block_count,
        (double (rec.first_block + (bi : ℕ))).toNat = index := by
  induction recoveryData generalizing map with
  | nil => simp
  | cons rec later ih =>
    have blocks := foldl_set_isSome (List.range rec.block_count)
      (fun bi => (double (rec.first_block + (bi : ℕ))).toNat)
      (fun bi => slice rec.data (bi * blockSize) ((bi + 1) * blockSize)) map index
    have rest := ih ((List.range rec.block_count).foldl
      (fun (map : BlockMap) bi => map.set (double (rec.first_block + (bi : ℕ))).toNat
        (slice rec.data (bi * blockSize) ((bi + 1) * blockSize))) map)
    simp only [List.mem_range] at blocks
    simp only [List.foldl_cons, rest, blocks, List.mem_cons, exists_eq_or_imp]
    rw [or_assoc, or_left_comm]

/-- The indices that the map of available blocks has an entry for. -/
theorem buildAvailableMap_isSome (blockSize : ℕ) (dataBlocks : List DataBlock)
    (recoveryData : List RecoveryData) (index : ℕ) :
    (buildAvailableMap blockSize dataBlocks recoveryData index).isSome = true ↔
      (∃ block ∈ dataBlocks, block.block_index = index) ∨
        ∃ rec ∈ recoveryData, ∃ bi < rec.block_count,
          (double (rec.first_block + (bi : ℕ))).toNat = index := by
  have inputs := foldl_set_isSome dataBlocks DataBlock.block_index DataBlock.data (fun _ => none)
    index
  simp only [Option.isSome_none, Bool.false_eq_true, or_false] at inputs
  rw [← inputs]
  exact foldl_recovery_isSome blockSize recoveryData _ index

section Scanners

variable (blake3 : Hash) (backend : Backend) (file : Buffer) (startPacket : StartPacket)
  (matrix : MatrixPacket)

/-- The map of available blocks, as repair builds it. -/
def RepairState.available (state : RepairState) : BlockMap :=
  buildAvailableMap state.startPacket.block_size state.dataBlocks state.recoveryData

/-- The missing blocks, as repair lists them. -/
def RepairState.missing (state : RepairState) : List ℕ :=
  missingBlocks state.available (double (state.totalInputBlocks + state.totalRecoveryBlocks)).toNat

/-- Repair has the blocks of the packets that pass their checksum. -/
theorem decoded_available (index : ℕ) :
    ((decoded blake3 backend file startPacket matrix).available index).isSome = true ↔
      ∃ packet ∈ packetsOf file, packet.valid blake3 = true ∧ index ∈ presentBlocks packet := by
  unfold RepairState.available decoded
  rw [buildAvailableMap_isSome]
  constructor
  · rintro (⟨block, member, rfl⟩ | ⟨rec, member, bi, inside, rfl⟩)
    · obtain ⟨entry, recorded, rfl⟩ := List.mem_map.mp member
      obtain ⟨packet, found, set⟩ := List.mem_filterMap.mp (List.mem_mergeSort.mp recorded)
      rw [dataOf] at set
      split at set
      · rename_i both
        obtain rfl := Option.some.inj set
        refine ⟨packet, found, both.2, ?_⟩
        simp [presentBlocks, both.1]
      · cases set
    · obtain ⟨entry, recorded, rfl⟩ := List.mem_map.mp member
      obtain ⟨packet, found, set⟩ := List.mem_filterMap.mp recorded
      rw [recoveryOf] at set
      split at set
      · rename_i both
        obtain rfl := Option.some.inj set
        refine ⟨packet, found, both.2, ?_⟩
        rw [presentBlocks, both.1]
        exact List.mem_map.mpr ⟨bi, List.mem_range.mpr inside, rfl⟩
      · cases set
  · rintro ⟨packet, found, valid, present⟩
    cases kind : packet.type with
    | DATA =>
      rw [presentBlocks, kind, List.mem_singleton] at present
      refine .inl ⟨_, List.mem_map.mpr ⟨⟨uint64At packet.body 0, packet.absBodyOffset + 8⟩,
        List.mem_mergeSort.mpr (List.mem_filterMap.mpr ⟨packet, found, ?_⟩), rfl⟩, present.symm⟩
      rw [dataOf, if_pos ⟨kind, valid⟩]
    | RECOVERY =>
      rw [presentBlocks, kind] at present
      obtain ⟨bi, inside, same⟩ := List.mem_map.mp present
      refine .inr ⟨_, List.mem_map.mpr ⟨⟨uint64At packet.body 0, uint64At packet.body 8,
        packet.absBodyOffset + 16⟩, List.mem_filterMap.mpr ⟨packet, found, ?_⟩, rfl⟩, bi,
        List.mem_range.mp inside, same⟩
      rw [recoveryOf, if_pos ⟨kind, valid⟩]
    | _ => simp [presentBlocks, kind] at present

/-- Every packet that verify counts passes its checksum. -/
def countsValid : Prop :=
  ∀ packet ∈ packetsOf file, presentBlocks packet ≠ [] → packet.valid blake3 = true

/-- The sums of the block counts agree, since a RECOVERY packet that only verify adds has none. -/
theorem recoverySum_eq (packets : List Packet)
    (valid : ∀ packet ∈ packets, presentBlocks packet ≠ [] → packet.valid blake3 = true)
    (sum : ℕ) (exact : roundDouble sum = sum) :
    (packets.filterMap recoveryBlockOf).foldl
        (fun (sum : ℤ) rb => double (sum + (rb.block_count : ℤ))) sum =
      (packets.filterMap (recoveryOf blake3)).foldl
        (fun (sum : ℤ) entry => double (sum + (entry.block_count : ℤ))) sum := by
  induction packets generalizing sum with
  | nil => rfl
  | cons packet later ih =>
    have rest := ih fun other member => valid other (List.mem_cons_of_mem _ member)
    by_cases kind : packet.type = .RECOVERY
    · rw [List.filterMap_cons, List.filterMap_cons, recoveryBlockOf, if_pos kind, recoveryOf]
      by_cases passes : packet.valid blake3 = true
      · rw [if_pos ⟨kind, passes⟩, List.foldl_cons, List.foldl_cons, ← Nat.cast_add,
          double_natCast_eq]
        exact rest _ (roundDouble_roundDouble _)
      · have fails : ¬ (packet.type = .RECOVERY ∧
            validatePacketChecksum blake3 packet.header packet.body = true) :=
          fun both => passes both.2
        have empty : uint64At packet.body 8 = 0 := by
          by_contra some
          refine passes (valid packet (List.mem_cons_self) ?_)
          simp [presentBlocks, kind, some]
        rw [if_neg fails, List.foldl_cons, empty, Nat.cast_zero, add_zero, double_natCast_eq, exact]
        exact rest sum exact
    · rw [List.filterMap_cons, List.filterMap_cons, recoveryBlockOf, if_neg kind, recoveryOf,
        if_neg fun both => kind both.1]
      exact rest sum exact

theorem verifyRecoveryCount_eq (valid : countsValid blake3 file) :
    verifyRecoveryCount file matrix =
      (decoded blake3 backend file startPacket matrix).totalRecoveryBlocks := by
  unfold verifyRecoveryCount decoded totalRecoveryBlocks
  cases matrix.recovery_count with
  | some count => rfl
  | none => exact recoverySum_eq blake3 (packetsOf file) valid 0 (roundDouble_of_lt 0 (by norm_num))

/-- On valid packets both scanners list the same missing blocks. -/
theorem uncountedBlocks_eq (valid : countsValid blake3 file) :
    uncountedBlocks file matrix = (decoded blake3 backend file startPacket matrix).missing := by
  have total : expectedBlocks file matrix =
      double ((decoded blake3 backend file startPacket matrix).totalInputBlocks +
        (decoded blake3 backend file startPacket matrix).totalRecoveryBlocks) := by
    rw [expectedBlocks, verifyRecoveryCount_eq blake3 backend file startPacket matrix valid]
    rfl
  rw [uncountedBlocks, total]
  refine List.filter_congr fun index _ => ?_
  have available := decoded_available blake3 backend file startPacket matrix index
  have present : index ∈ countedBlocks file ↔
      ∃ packet ∈ packetsOf file, packet.valid blake3 = true ∧ index ∈ presentBlocks packet := by
    rw [countedBlocks, List.mem_flatMap]
    constructor
    · rintro ⟨packet, found, member⟩
      exact ⟨packet, found, valid packet found (List.ne_nil_of_mem member), member⟩
    · rintro ⟨packet, found, _, member⟩
      exact ⟨packet, found, member⟩
  rw [← available] at present
  cases entry : (decoded blake3 backend file startPacket matrix).available index with
  | none =>
    rw [entry] at present
    simp [mt present.mp]
  | some block =>
    rw [entry] at present
    simp [present.mpr rfl]

/-- Repair can read whatever verify can read. -/
theorem readArchive_of_reports (reports : Reports file startPacket matrix) :
    readArchive blake3 backend file = .ok (decoded blake3 backend file startPacket matrix) := by
  have read : (packetsOf file).all (readable blake3) = true := by
    refine List.all_eq_true.mpr fun packet member => ?_
    have scanned := List.all_eq_true.mp reports.scanned packet member
    unfold scannable at scanned
    unfold readable
    cases kind : packet.type with
    | START => rwa [kind] at scanned
    | CAUCHY => rwa [kind] at scanned
    | MATRIX => rwa [kind] at scanned
    | DATA =>
      simp only [kind] at scanned ⊢
      rw [scanned, Bool.or_true]
    | RECOVERY =>
      simp only [kind] at scanned ⊢
      rw [((Bool.and_eq_true _ _).mp scanned).1, Bool.or_true]
    | _ => rfl
  have whole := reports.whole
  rw [readArchive_eq, read, if_neg (by decide), if_neg (by omega), reports.start,
    reports.parameters]

end Scanners

/-! ## When repair succeeds -/

/-- What repair asks for beyond the count: a packet for each equation, a matrix that can be
read and is nonsingular, whole words, and no block cut off by the end of the file. -/
structure RepairState.Reconstructible (backend : Backend) (state : RepairState) : Prop where
  equations : state.missing.length ≤ state.recoveryData.length
  readable : ∀ eq < state.missing.length, ∀ index ∈ state.missing,
    (state.coefficientOf (state.nativeM backend state.missing.length) eq index).isSome = true
  words : 8 ∣ state.startPacket.block_size
  nonempty : 0 < state.startPacket.block_size
  whole : ∀ index ∈ state.knownInputIndices state.available state.missing,
    state.startPacket.block_size ≤ ((state.available index).getD []).length
  nonsingular : Matrix.det (fun eq col : Fin state.missing.length =>
    (state.coefficientOf (state.nativeM backend state.missing.length) eq
      (state.missing.get col)).getD 0) ≠ 0

theorem reconstruct_ok_iff (backend : Backend) (state : RepairState)
    (enough : state.missing.length ≤ state.recoveryData.length) :
    (∃ result, reconstruct backend state state.available state.missing = .ok result) ↔
      state.Reconstructible backend := by
  have spec := SolveAndReconstruct_spec
    (fun eq col : Fin state.missing.length =>
      (state.coefficientOf (state.nativeM backend state.missing.length) eq
        (state.missing.get col)).getD 0)
    (fun eq => state.rhs backend state.available state.missing.length
      (state.knownInputIndices state.available state.missing) eq)
  unfold reconstruct
  by_cases entries : ((List.range state.missing.length).any fun eq => state.missing.any fun index =>
      (state.coefficientOf (state.nativeM backend state.missing.length) eq index).isNone) = true
  · simp only [if_pos entries]
    constructor
    · rintro ⟨_, impossible⟩
      cases impossible
    · intro condition
      obtain ⟨eq, row, fails⟩ := List.any_eq_true.mp entries
      obtain ⟨index, member, fails⟩ := List.any_eq_true.mp fails
      have read := condition.readable eq (List.mem_range.mp row) index member
      rw [Option.isNone_iff_eq_none] at fails
      rw [fails] at read
      cases read
  simp only [if_neg entries]
  by_cases odd : state.startPacket.block_size % 8 ≠ 0 ∨ state.startPacket.block_size = 0
  · simp only [if_pos odd]
    constructor
    · rintro ⟨_, impossible⟩
      cases impossible
    · intro condition
      have words := Nat.mod_eq_zero_of_dvd condition.words
      have nonempty := condition.nonempty
      omega
  simp only [if_neg odd]
  by_cases short : ((state.knownInputIndices state.available state.missing).any fun index =>
      decide (((state.available index).getD []).length < state.startPacket.block_size)) = true
  · simp only [if_pos short]
    constructor
    · rintro ⟨_, impossible⟩
      cases impossible
    · intro condition
      obtain ⟨index, member, cutOff⟩ := List.any_eq_true.mp short
      exact absurd (of_decide_eq_true cutOff) (Nat.not_lt.mpr (condition.whole index member))
  simp only [if_neg short]
  have readable : ∀ eq < state.missing.length, ∀ index ∈ state.missing,
      (state.coefficientOf (state.nativeM backend state.missing.length) eq index).isSome = true := by
    intro eq row index member
    by_contra fails
    refine entries (List.any_eq_true.mpr ⟨eq, List.mem_range.mpr row,
      List.any_eq_true.mpr ⟨index, member, ?_⟩⟩)
    rw [Option.isNone_iff_eq_none, ← Option.not_isSome_iff_eq_none]
    exact fails
  have whole : ∀ index ∈ state.knownInputIndices state.available state.missing,
      state.startPacket.block_size ≤ ((state.available index).getD []).length := by
    intro index member
    by_contra cutOff
    exact short (List.any_eq_true.mpr ⟨index, member, decide_eq_true (Nat.not_le.mp cutOff)⟩)
  cases solved : SolveAndReconstruct (fun eq col : Fin state.missing.length =>
      (state.coefficientOf (state.nativeM backend state.missing.length) eq
        (state.missing.get col)).getD 0)
      (fun eq => state.rhs backend state.available state.missing.length
        (state.knownInputIndices state.available state.missing) eq) with
  | none =>
    rw [solved] at spec
    constructor
    · rintro ⟨_, impossible⟩
      cases impossible
    · intro condition
      exact absurd spec condition.nonsingular
  | some solution =>
    rw [solved] at spec
    refine ⟨fun _ => ⟨enough, readable, ?_, ?_, whole, spec.1⟩, fun _ => ⟨_, rfl⟩⟩
    · exact Nat.dvd_of_mod_eq_zero (by omega)
    · omega

/-- Repair of a file that verify calls repairable succeeds when nothing is missing or when
the reconstruction has what it asks for. -/
theorem par3_repair_ok_iff (blake3 : Hash) (backend : Backend) (file : Buffer) (state : RepairState)
    (read : readArchive blake3 backend file = .ok state)
    (ends : ¬ (2 ^ 53 < double (state.totalInputBlocks + state.totalRecoveryBlocks) ∨
      (state.recoveryData.any fun rec => decide (2 ^ 53 < rec.block_count)) = true))
    (count : (state.missing.length : ℤ) ≤ state.totalRecoveryBlocks) :
    (∃ result, par3_repair blake3 backend file = .ok result) ↔
      state.missing = [] ∨ state.Reconstructible backend := by
  have missing : missingBlocks state.available
      (double (state.totalInputBlocks + state.totalRecoveryBlocks)).toNat = state.missing := rfl
  have available : buildAvailableMap state.startPacket.block_size state.dataBlocks
      state.recoveryData = state.available := rfl
  unfold par3_repair
  rw [read]
  simp only [if_neg ends, missing, available]
  by_cases complete : state.missing.length = 0
  · simp only [if_pos complete]
    exact ⟨fun _ => .inl (List.length_eq_zero_iff.mp complete), fun _ => ⟨_, rfl⟩⟩
  have some : state.missing ≠ [] := fun none => complete (List.length_eq_zero_iff.mpr none)
  simp only [if_neg complete, if_neg (not_lt.mpr count), some, false_or]
  by_cases few : state.recoveryData.length < state.missing.length
  · simp only [if_pos few]
    constructor
    · rintro ⟨_, impossible⟩
      cases impossible
    · intro condition
      exact absurd few (Nat.not_lt.mpr condition.equations)
  · simp only [if_neg few]
    exact reconstruct_ok_iff backend state (Nat.not_lt.mp few)

/-! ## Original blocks -/

namespace Damage

variable {blake3 : Hash} (damage : Damage blake3) (archive : Archive) (backend : Backend)

/-- A successful repair writes the original blocks exactly when no short block survives and
the lost recovery blocks absorb what enters the equations wrongly. -/
theorem blocks_original_iff (nonempty : 0 < archive.totalBlocks) (declared : archive.recoverySlices ≠ 0)
    {result : RepairResult}
    (success : par3_repair blake3 backend (damage.file archive) = .ok result) :
    result.blocks = (List.range archive.totalBlocks).map archive.inputBlock ↔
      (∀ index ∈ damage.survivors archive,
        (archive.blockData.getD index []).length = archive.blockSize) ∧
      (0 < (damage.missing archive).length → damage.absorbed archive) := by
  rcases Nat.eq_zero_or_pos (damage.missing archive).length with complete | lossy
  · obtain ⟨inputs, recovery⟩ := (damage.missing_eq_zero archive).mp complete
    have packets : archive.recoveryPackets = archive.recoverySlices := if_neg (by omega)
    have follows : ∃ row < archive.recoveryPackets, (damage.recovery row).survives = true := by
      refine ⟨0, by omega, ?_⟩
      by_contra lost
      have member := (damage.mem_lostRecovery archive 0).mpr
        ⟨by omega, Bool.eq_false_iff.mpr lost⟩
      rw [recovery] at member
      cases member
    obtain ⟨written, same, blocks⟩ := damage.par3_repair_complete archive backend nonempty complete
    rw [success] at same
    obtain rfl := Except.ok.inj same
    rw [blocks, damage.dataBlocks_complete archive inputs, List.map_inj_left]
    constructor
    · intro originals
      refine ⟨fun index survives => ?_, fun lossy => by omega⟩
      exact (damage.readBlock_eq_iff archive follows index).mp
        (originals index (List.mem_filter.mp survives).1)
    · rintro ⟨full, _⟩ index member
      rcases damage.mem_survivors_or_lost archive (List.mem_range.mp member) with survives | lost
      · exact damage.readBlock_full archive (full index survives)
      · rw [inputs] at lost
        cases lost
  · have solvable := ((damage.par3_repair_iff archive backend nonempty lossy fun _ _ => True).mp
      ⟨result, success, fun index lost => by
        obtain ⟨solution, rfl⟩ := damage.par3_repair_solution archive backend nonempty lossy success
        exact ⟨_, (damage.mem_blockFiles archive backend solution index _).mpr
          ⟨(damage.mem_missing archive index).mpr (.inl lost), rfl⟩, trivial⟩⟩).1
    have follows := damage.exists_surviving archive lossy
      ((damage.equations_iff archive).mpr solvable.equations)
    have restores : damage.absorbed archive ↔ ∀ index ∈ damage.lostInputs archive,
        (index, archive.inputBlock index) ∈ result.blockFiles := by
      have restored := damage.restoresLostInputs_iff archive backend
      rw [restoresLostInputs, success, restorable] at restored
      constructor
      · intro absorbed
        obtain ⟨other, same, files⟩ := restored.mpr ⟨nonempty, .inr ⟨solvable, absorbed⟩⟩
        obtain rfl := Except.ok.inj same
        exact files
      · intro files
        obtain ⟨_, complete | ⟨_, absorbed⟩⟩ := restored.mp ⟨result, rfl, files⟩
        · have none := (damage.missing_eq_zero archive).mpr complete
          omega
        · exact absorbed
    obtain ⟨solution, rfl⟩ := damage.par3_repair_solution archive backend nonempty lossy success
    have written (index : ℕ) (inside : index < archive.totalBlocks) :=
      damage.writeBlocks_getD archive backend nonempty solution index inside
    have file (index : ℕ) (lost : index ∈ damage.lostInputs archive) :=
      (damage.mem_blockFiles archive backend solution index _).mpr
        ⟨(damage.mem_missing archive index).mpr (.inl lost), rfl⟩
    have length := (written 0 nonempty).1
    rw [restores]
    constructor
    · intro originals
      have entry (index : ℕ) (inside : index < archive.totalBlocks) :
          ((damage.state archive).writeBlocks backend (damage.available archive)
            (damage.missing archive) solution).blocks.getD index [] = archive.inputBlock index := by
        rw [originals, List.getD_eq_getElem _ _ (by simpa using inside), List.getElem_map,
          List.getElem_range]
      refine ⟨fun index survives => ?_, fun _ index lost => ?_⟩
      · have inside := List.mem_range.mp (List.mem_filter.mp survives).1
        rw [← damage.readBlock_eq_iff archive follows, ← (written index inside).2.1 survives]
        exact entry index inside
      · have inside := ((damage.mem_lostInputs archive index).mp lost).1
        have block := (written index inside).2.2 _ (file index lost)
        rw [← entry index inside, block]
        exact file index lost
    · rintro ⟨full, files⟩
      refine List.ext_getElem (by simpa using length) fun index first second => ?_
      have inside : index < archive.totalBlocks := by omega
      rw [← List.getD_eq_getElem _ [] first, List.getElem_map, List.getElem_range]
      rcases damage.mem_survivors_or_lost archive inside with survives | lost
      · rw [(written index inside).2.1 survives]
        exact damage.readBlock_full archive (full index survives)
      · exact (written index inside).2.2 _ (files lossy index lost)

end Damage

/-! ## Soundness of the report -/

section Soundness

variable (blake3 : Hash) (backend : Backend) (file : Buffer)

/-- A report of verify keeps its promises: counted packets are valid, also when the archive is
called whole, and an archive that is called repairable is repaired with its original blocks. -/
def verifySound : Prop :=
  ∀ report, par3_verify blake3 file = .ok report →
    (report.archiveOk = true → countsValid blake3 file) ∧
    (report.canRepair = true → ∃ result, par3_repair blake3 backend file = .ok result ∧
      ∀ (archive : Archive) (damage : Damage blake3), damage.file archive = file →
        result.blocks = (List.range archive.totalBlocks).map archive.inputBlock) ∧
    countsValid blake3 file

/-- The condition under which verify is sound: on a file it reports on, every counted packet
is valid, and when no more blocks are missing than recovery blocks are declared, nothing is
missing or the reconstruction has what it asks for, no short block survives, and the lost
recovery blocks absorb the errors of the equations. -/
def verifyReliable : Prop :=
  ∀ startPacket matrix, Reports file startPacket matrix →
    countsValid blake3 file ∧
    (((uncountedBlocks file matrix).length : ℤ) ≤ verifyRecoveryCount file matrix →
      (uncountedBlocks file matrix = [] ∨
        (decoded blake3 backend file startPacket matrix).Reconstructible backend) ∧
      ∀ (archive : Archive) (damage : Damage blake3), damage.file archive = file →
        (∀ index ∈ damage.survivors archive,
          (archive.blockData.getD index []).length = archive.blockSize) ∧
        (0 < (damage.missing archive).length → damage.absorbed archive))

/-- Verify is sound exactly under its condition. Where every counted packet is valid, the report counts
the blocks that repair misses, and what is left is whether repair can restore them. -/
theorem verifySound_iff : verifySound blake3 backend file ↔ verifyReliable blake3 backend file := by
  have succeeds {startPacket : StartPacket} {matrix : MatrixPacket}
      (reports : Reports file startPacket matrix) (valid : countsValid blake3 file)
      (few : ((uncountedBlocks file matrix).length : ℤ) ≤ verifyRecoveryCount file matrix) :
      (∃ result, par3_repair blake3 backend file = .ok result) ↔
        uncountedBlocks file matrix = [] ∨
          (decoded blake3 backend file startPacket matrix).Reconstructible backend := by
    have missing := uncountedBlocks_eq blake3 backend file startPacket matrix valid
    have count := verifyRecoveryCount_eq blake3 backend file startPacket matrix valid
    have finite := reports.finite
    rw [expectedBlocks, count] at finite
    rw [missing]
    rw [missing, count] at few
    refine par3_repair_ok_iff blake3 backend file _
      (readArchive_of_reports blake3 backend file startPacket matrix reports) ?_ few
    rintro (large | endless)
    · exact absurd large (not_lt.mpr finite)
    · obtain ⟨rec, member, endless⟩ := List.any_eq_true.mp endless
      obtain ⟨entry, recorded, rfl⟩ := List.mem_map.mp member
      obtain ⟨packet, found, set⟩ := List.mem_filterMap.mp recorded
      have scanned := List.all_eq_true.mp reports.scanned packet found
      rw [recoveryOf] at set
      split at set
      · rename_i both
        obtain rfl := Option.some.inj set
        simp only [scannable, both.1] at scanned
        have small := of_decide_eq_true ((Bool.and_eq_true _ _).mp scanned).2
        exact absurd (of_decide_eq_true endless) (Nat.not_lt.mpr small)
      · cases set
  have original {startPacket : StartPacket} {matrix : MatrixPacket} {result : RepairResult}
      (reports : Reports file startPacket matrix)
      (success : par3_repair blake3 backend file = .ok result) (archive : Archive)
      (damage : Damage blake3) (same : damage.file archive = file) :
      result.blocks = (List.range archive.totalBlocks).map archive.inputBlock ↔
        (∀ index ∈ damage.survivors archive,
          (archive.blockData.getD index []).length = archive.blockSize) ∧
        (0 < (damage.missing archive).length → damage.absorbed archive) := by
    subst same
    have nonempty : 0 < archive.totalBlocks := by
      rcases Nat.eq_zero_or_pos archive.totalBlocks with empty | nonempty
      · rw [damage.par3_repair_empty archive backend empty] at success
        cases success
      · exact nonempty
    have read := readArchive_of_reports blake3 backend _ startPacket matrix reports
    rw [damage.readArchive_file archive backend] at read
    have parameters : archive.matrixPacket = matrix :=
      congrArg RepairState.matrix (Except.ok.inj read)
    refine damage.blocks_original_iff archive backend nonempty (fun none => ?_) success
    refine reports.declared ?_
    rw [← parameters, Archive.matrixPacket, none]
  constructor
  · intro sound startPacket matrix reports
    obtain ⟨_, repairs, valid⟩ := sound _ ((par3_verify_ok_iff blake3 file _).mpr
      ⟨startPacket, matrix, reports, rfl⟩)
    refine ⟨valid, fun few => ?_⟩
    obtain ⟨result, success, originals⟩ := repairs (decide_eq_true few)
    refine ⟨(succeeds reports valid few).mp ⟨result, success⟩, fun archive damage same => ?_⟩
    exact (original reports success archive damage same).mp (originals archive damage same)
  · intro reliable report reported
    obtain ⟨startPacket, matrix, reports, rfl⟩ := (par3_verify_ok_iff blake3 file _).mp reported
    obtain ⟨valid, repairs⟩ := reliable startPacket matrix reports
    refine ⟨fun _ => valid, fun few => ?_, valid⟩
    obtain ⟨reconstructs, originals⟩ := repairs (of_decide_eq_true few)
    obtain ⟨result, success⟩ := (succeeds reports valid (of_decide_eq_true few)).mpr reconstructs
    refine ⟨result, success, fun archive damage same => ?_⟩
    exact (original reports success archive damage same).mpr (originals archive damage same)

end Soundness

/-! ## A damaged packet -/

/-- Verify reports on every damaged archive whose damaged packets are long enough to read. -/
theorem Damage.reports {blake3 : Hash} (damage : Damage blake3) (archive : Archive)
    (declared : archive.recoverySlices ≠ 0)
    (data : ∀ index replacement, damage.data index = .damaged replacement →
      8 ≤ replacement.body.length)
    (recovery : ∀ row replacement, damage.recovery row = .damaged replacement →
      16 ≤ replacement.body.length ∧ uint64At replacement.body 8 ≤ 2 ^ 53) :
    Reports (damage.file archive) archive.startPacket archive.matrixPacket := by
  obtain ⟨found, complete⟩ := packetsOf_packetBytes (damage.packets archive)
    (damage.packets_wellFormed archive)
  obtain ⟨start, matrix⟩ := damage.parameters_reported archive
  change packetsOf (damage.file archive) = _ at found
  change leftoverOf (damage.file archive) = _ at complete
  refine ⟨?_, by rw [complete]; rfl, found ▸ start, found ▸ matrix, ?_, ?_⟩
  · refine List.all_eq_true.mpr fun packet member => ?_
    rw [found] at member
    obtain ⟨raw, inside, type, body, _⟩ := exists_of_mem_reported member
    rw [scannable, type, body]
    rw [packets_eq, List.mem_append, List.mem_append] at inside
    rcases inside with inside | inside | inside
    · obtain ⟨_, notData, notRecovery, notMatrix, startBody, matrixBody⟩ :=
        archive.headerPackets_spec blake3 raw inside
      cases kind : raw.type with
      | START => simp [startBody kind, archive.startBody_length]
      | CAUCHY => simp [matrixBody kind, archive.matrixBody_length]
      | MATRIX => exact absurd kind notMatrix
      | DATA => exact absurd kind notData
      | RECOVERY => exact absurd kind notRecovery
      | _ => rfl
    · obtain ⟨index, _, applied⟩ := List.mem_filterMap.mp inside
      rw [(damage.dataPackets_spec archive _ _ raw inside).2.1]
      refine decide_eq_true ?_
      cases fate : damage.data index with
      | intact =>
        rw [fate] at applied
        obtain rfl := Option.some.inj applied
        change 8 ≤ (Archive.dataBody index _).length
        simp [Archive.dataBody]
      | lost =>
        rw [fate] at applied
        cases applied
      | damaged replacement =>
        rw [fate] at applied
        obtain rfl := Option.some.inj applied
        exact data index _ fate
    · obtain ⟨row, _, applied⟩ := List.mem_filterMap.mp inside
      rw [(damage.recoveryPackets_spec archive _ _ raw inside).2.1]
      rw [Bool.and_eq_true, decide_eq_true_eq, decide_eq_true_eq]
      cases fate : damage.recovery row with
      | intact =>
        rw [fate] at applied
        obtain rfl := Option.some.inj applied
        have one : uint64At (archive.recoveryBody row) 8 = 1 :=
          uint64At_written _ _ _ (by norm_num) (by simp [Archive.recoveryBody, slice])
        change 16 ≤ (archive.recoveryBody row).length ∧ uint64At (archive.recoveryBody row) 8 ≤ _
        rw [archive.recoveryBody_length, one]
        omega
      | lost =>
        rw [fate] at applied
        cases applied
      | damaged replacement =>
        rw [fate] at applied
        obtain rfl := Option.some.inj applied
        exact recovery row _ fate
  · rw [Archive.matrixPacket]
    simpa using declared
  · have small := archive.totalBlocks_le
    have slices := archive.recoverySlices_small
    have inputs : archive.matrixPacket.inputCount = (max 1 archive.totalBlocks : ℕ) := by
      rcases Nat.eq_zero_or_pos archive.totalBlocks with empty | nonempty
      · simp [MatrixPacket.inputCount, Archive.matrixPacket, empty, double]
        decide
      · rw [inputCount_eq archive nonempty, Nat.max_eq_right nonempty]
    have count : verifyRecoveryCount (damage.file archive) archive.matrixPacket =
        archive.recoverySlices := rfl
    rw [expectedBlocks, inputs, count, ← Nat.cast_add, double_natCast _ (by omega)]
    exact_mod_cast (show max 1 archive.totalBlocks + archive.recoverySlices ≤ 2 ^ 53 by omega)

/-- A stored checksum that is neither zero nor the right one. -/
def wrongChecksum (checksum : Buffer) : Buffer :=
  if checksum = List.replicate 16 1 then List.replicate 16 2 else List.replicate 16 1

theorem wrongChecksum_spec (checksum : Buffer) : (wrongChecksum checksum).length = 16 ∧
    (wrongChecksum checksum).all (· == 0) = false ∧ wrongChecksum checksum ≠ checksum := by
  unfold wrongChecksum
  split
  · rename_i same
    subst same
    decide
  · rename_i other
    exact ⟨by decide, by decide, fun same => other same.symm⟩

/-- A created packet fails once its checksum is replaced by a wrong one. -/
theorem wrongChecksum_fails (blake3 : Hash) (type : PacketType) (inputSetId body : Buffer)
    (formed : (createPacket blake3 type inputSetId body).WellFormed) :
    let damaged : RawPacket := { createPacket blake3 type inputSetId body with
      checksum := wrongChecksum (createPacket blake3 type inputSetId body).checksum }
    damaged.WellFormed ∧ damaged.type = type ∧ damaged.valid blake3 = false := by
  intro damaged
  obtain ⟨length, nonzero, other⟩ :=
    wrongChecksum_spec (createPacket blake3 type inputSetId body).checksum
  have stillFormed : damaged.WellFormed := ⟨length, formed.inputSetId_length, formed.body_small⟩
  obtain ⟨_, stored, rest, _, _⟩ := RawPacket.header_fields stillFormed
  refine ⟨stillFormed, rfl, ?_⟩
  unfold RawPacket.valid validatePacketChecksum
  rw [stored, rest]
  change (if (wrongChecksum _).all (· == 0) then true else _) = false
  rw [nonzero]
  exact beq_eq_false_iff_ne.mpr other

/-- The DATA packet of the archive with one block has a wrong checksum. -/
def checksumDamaged (blake3 : Hash) : Damage blake3 where
  data := fun _ => .damaged { oneBlock.dataPacket blake3 0 with
    checksum := wrongChecksum (oneBlock.dataPacket blake3 0).checksum }
  recovery := fun _ => .intact
  data_fails := by
    intro index replacement fate
    obtain rfl := Fate.damaged.inj fate
    exact wrongChecksum_fails blake3 .DATA _ _
      (oneBlock.packet_wellFormed blake3 .DATA _ (oneBlock.dataBody_small 0))
  recovery_fails := intact_recovery_fails blake3

/-- Verify reports on the archive and counts the packet with the wrong checksum. -/
theorem wrong_checksum_counted : ¬ ∃ (blake3 : Hash) (backend : Backend),
    verifySound blake3 backend ((checksumDamaged blake3).file oneBlock) := by
  rintro ⟨blake3, backend, sound⟩
  have reports := (checksumDamaged blake3).reports oneBlock (by decide)
    (fun index replacement fate => by
      obtain rfl := Fate.damaged.inj fate
      change 8 ≤ (Archive.dataBody 0 _).length
      simp [Archive.dataBody])
    (fun row replacement fate => by cases fate)
  have valid := (sound _ ((par3_verify_ok_iff blake3 _ _).mpr ⟨_, _, reports, rfl⟩)).2.2
  obtain ⟨found, _⟩ := packetsOf_packetBytes ((checksumDamaged blake3).packets oneBlock)
    ((checksumDamaged blake3).packets_wellFormed oneBlock)
  have fails := ((checksumDamaged blake3).data_fails 0 _ rfl).2.2
  have inside : { oneBlock.dataPacket blake3 0 with
      checksum := wrongChecksum (oneBlock.dataPacket blake3 0).checksum } ∈
      (checksumDamaged blake3).packets oneBlock := by
    rw [Damage.packets, oneBlock_totalBlocks]
    exact List.mem_append_left _ (List.mem_append_right _ (List.mem_singleton_self _))
  obtain ⟨packet, member, type, body, header⟩ := @mem_reported_of_mem 0 _ _ inside
  rw [← found] at member
  have passes := valid packet member (by
    rw [presentBlocks, type]
    exact List.cons_ne_nil _ _)
  rw [Packet.valid, header, body] at passes
  rw [RawPacket.valid] at fails
  rw [fails] at passes
  cases passes

end Par3
