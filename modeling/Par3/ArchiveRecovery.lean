import Par3.RecoveryDispatchContract
import Par3.RecoveryPackets
import Par3.RepairContract

/-!
# Recovery blocks from create to repair

When there are no chunks, create has the padded blocks of all files in one buffer. The kernel that was
chosen is called once for them, and one packet is made of each recovery block in the accumulator. Whatever
was chosen, these are the RECOVERY packets of the archive, and repair restores lost blocks from them.
-/

namespace Par3

/-- A part of the bytes that begins and ends at a word. -/
theorem slice_ofWords {count first number : ℕ} (words : Words) (inside : first + number ≤ count) :
    slice (ofWords count words) (8 * first) (8 * (first + number)) =
      ofWords number fun word => words (first + word) := by
  have length : (slice (ofWords count words) (8 * first) (8 * (first + number))).length = 8 * number := by
    rw [slice_length _ _ _ (by rw [ofWords_length]; omega)]
    omega
  rw [← ofWords_wordAt _ _ length]
  refine ofWords_congr _ fun word below => ?_
  rw [wordAt_slice _ (by omega), wordAt_ofWords _ _ _ (by omega)]

/-- Pieces of one size are found one behind the other. -/
theorem slice_pieces (piece : ℕ → Buffer) (size : ℕ) (lengths : ∀ index, (piece index).length = size)
    (count : ℕ) :
    ((List.range count).flatMap piece).length = count * size ∧ ∀ index < count,
      slice ((List.range count).flatMap piece) (index * size) ((index + 1) * size) = piece index := by
  induction count with
  | zero => exact ⟨(Nat.zero_mul size).symm, nofun⟩
  | succ count ih =>
    obtain ⟨length, earlier⟩ := ih
    rw [List.range_succ, List.flatMap_append, List.flatMap_singleton]
    refine ⟨by rw [List.length_append, length, lengths, Nat.succ_mul], fun index inside => ?_⟩
    by_cases last : index = count
    · subst last
      have reached : index * size + (piece index).length = (index + 1) * size := by
        rw [lengths, Nat.succ_mul]
      have found := slice_middle ((List.range index).flatMap piece) (piece index) [] length reached
      rwa [List.append_nil] at found
    · have before : (index + 1) * size ≤ count * size := Nat.mul_le_mul_right size (by omega)
      rw [slice_append _ _ _ _ (by omega)]
      exact earlier index (by omega)

/-- The kernel of `routingDecision`, and the environment that `dispatchRecovery` reads. -/
structure RecoverySetting where
  engine : RecoveryEngine
  env : DispatchEnv
  kernel : RecoveryKernel
  numThreads : ℤ

namespace Archive

variable (archive : Archive)

/-- What the files leave in the buffer of all inputs: their padded blocks, one behind the other. -/
def fullInputs : Buffer := (List.range archive.totalBlocks).flatMap archive.inputBlock

def recoveryArgs (numThreads : ℤ) : KernelArgs where
  numInputs := archive.totalBlocks
  numRecovery := archive.recoverySlices
  blockSize := archive.blockSize
  firstInput := 0
  firstRecovery := archive.totalBlocks
  numThreads := numThreads
  outputsLength := archive.recoverySlices * archive.blockSize

/-- What the kernel that `finalizeRecovery` calls may leave in the accumulator. The matrix may come from a
worker. -/
def finalizeRecovery (setting : RecoverySetting) (accumulator last : Words) : Prop :=
  let args := archive.recoveryArgs setting.numThreads
  if setting.kernel = .fenger ∧ setting.engine.compute_recovery_fenger then
    setting.engine.computeFenger args archive.fullInputs accumulator last
  else if setting.kernel = .barycentric ∧ setting.engine.compute_recovery_barycentric then
    setting.engine.computeBarycentric args archive.fullInputs false accumulator last
  else
    setting.engine.computeWithCoeff args archive.fullInputs accumulator last ∨
      setting.engine.dispatchRecovery args archive.fullInputs setting.env accumulator last

/-- A recovery block in the accumulator. -/
def accumulatorBlock (accumulator : Words) (r : ℕ) : Buffer :=
  slice (ofWords (archive.recoverySlices * (archive.blockSize / 8)) accumulator) (r * archive.blockSize)
    ((r + 1) * archive.blockSize)

/-- `_finalizeRecoveryBlocks`, for an accumulator in memory: the packets that are written. -/
def finalizeRecoveryBlocks (blake3 : Hash) (binding : Bool) (memory : ℕ → ℕ → UInt8) (accumulator : Words) :
    Except AssemblyError (List Buffer) :=
  if archive.recoverySlices = 0 ∨ archive.totalBlocks = 0 then .ok []
  else
    createRecoveryPackets blake3 binding memory archive.inputSetId
      (recoveryEntries (.number archive.totalBlocks) archive.recoverySlices
        (archive.accumulatorBlock accumulator))

/-- The recovery blocks fit in the accumulator, `MAX_IN_MEMORY`. -/
def InMemory : Prop := archive.recoverySlices * archive.blockSize ≤ 512 * 1024 * 1024

variable {archive} {setting : RecoverySetting} {accumulator last : Words}

theorem fullInputs_length : archive.fullInputs.length = archive.totalBlocks * archive.blockSize :=
  (slice_pieces archive.inputBlock archive.blockSize archive.inputBlock_length archive.totalBlocks).1

theorem InMemory.recovery_small (inMemory : archive.InMemory) : archive.recoverySlices ≤ 2 ^ 29 := by
  have rows := Nat.le_mul_of_pos_right archive.recoverySlices archive.blockSize_pos
  unfold InMemory at inMemory
  omega

theorem recoveryArgs_separate (inMemory : archive.InMemory) (numThreads : ℤ) :
    (archive.recoveryArgs numThreads).Separate := by
  have blocks := archive.totalBlocks_le
  have recovery := inMemory.recovery_small
  refine ⟨?_, ?_, .inl ?_⟩
  all_goals
    dsimp only [recoveryArgs]
    omega

/-- With a block and a recovery slice no entry turns the call down. -/
theorem recoveryArgs_accepted (inMemory : archive.InMemory) (nonempty : 0 < archive.totalBlocks)
    (some : 0 < archive.recoverySlices) (numThreads : ℤ) :
    (archive.recoveryArgs numThreads).Accepted archive.fullInputs where
  someInputs := nonempty
  someRecovery := some
  inputs_small := archive.totalBlocks_le.trans_lt (by norm_num)
  recovery_small := inMemory.recovery_small.trans_lt (by norm_num)
  size := archive.blockSize_pos
  words := archive.blockSize_words
  length := fullInputs_length
  room := Nat.le_refl _

/-! ## The recovery blocks -/

/-- Every kernel clears the accumulator and adds the products of all blocks. -/
theorem finalizeRecovery_added (inMemory : archive.InMemory) (nonempty : 0 < archive.totalBlocks)
    (some : 0 < archive.recoverySlices)
    (finalized : archive.finalizeRecovery setting accumulator last) :
    (archive.recoveryArgs setting.numThreads).Added archive.fullInputs
      ((archive.recoveryArgs setting.numThreads).cleared accumulator) last := by
  have separate := recoveryArgs_separate inMemory setting.numThreads
  have accepted := recoveryArgs_accepted inMemory nonempty some setting.numThreads
  rw [finalizeRecovery] at finalized
  split at finalized
  · exact RecoveryEngine.computeFenger_added separate nonempty.ne' finalized
  · split at finalized
    · exact RecoveryEngine.computeBarycentric_added separate nonempty.ne' accepted.inputs_small
        accepted.recovery_small finalized
    · rcases finalized with prepared | dispatched
      · exact RecoveryEngine.computeWithCoeff_added separate nonempty.ne' prepared
      · exact RecoveryEngine.dispatchRecovery_added separate accepted dispatched

/-- The product of a row is the sum over the blocks of the archive. -/
theorem recoveryArgs_product (numThreads : ℤ) {r w : ℕ} (word : w < archive.blockSize / 8) :
    (archive.recoveryArgs numThreads).product archive.fullInputs r w =
      ∑ input ∈ Finset.range archive.totalBlocks,
        cauchyCoefficient 0 archive.totalBlocks r input * wordAt (archive.inputBlock input) w := by
  have whole := archive.blockSize_eq
  refine Finset.sum_congr rfl fun input member => ?_
  have block := (slice_pieces archive.inputBlock archive.blockSize archive.inputBlock_length
    archive.totalBlocks).2 input (Finset.mem_range.mp member)
  have start : input * archive.blockSize = 8 * (input * (archive.blockSize / 8)) := by
    rw [Nat.mul_left_comm, whole]
  have stop : (input + 1) * archive.blockSize = input * archive.blockSize + archive.blockSize :=
    Nat.succ_mul input _
  rw [start] at block
  have read := @wordAt_slice archive.fullInputs (input * (archive.blockSize / 8))
    ((input + 1) * archive.blockSize) w (by omega)
  rw [fullInputs, block] at read
  rw [read, mul_comm]
  rfl

/-- The recovery blocks in the accumulator are those of the archive. -/
theorem accumulatorBlock_eq (inMemory : archive.InMemory) (nonempty : 0 < archive.totalBlocks)
    (finalized : archive.finalizeRecovery setting accumulator last) {r : ℕ} (row : r < archive.recoverySlices) :
    archive.accumulatorBlock last r = archive.recoveryBlock r := by
  have added := finalizeRecovery_added inMemory nonempty (Nat.zero_lt_of_lt row) finalized
  have whole := archive.blockSize_eq
  have start : r * archive.blockSize = 8 * (r * (archive.blockSize / 8)) := by
    rw [Nat.mul_left_comm, whole]
  have stop : (r + 1) * archive.blockSize = 8 * (r * (archive.blockSize / 8) + archive.blockSize / 8) := by
    rw [Nat.mul_add, ← start, whole, Nat.succ_mul]
  have rows : (r + 1) * (archive.blockSize / 8) ≤ archive.recoverySlices * (archive.blockSize / 8) :=
    Nat.mul_le_mul_right _ row
  rw [Nat.succ_mul] at rows
  rw [accumulatorBlock, start, stop, slice_ofWords _ rows, recoveryBlock]
  refine ofWords_congr _ fun word below => ?_
  have sum := added r row word below
  have clear : r * (archive.blockSize / 8) + word < (archive.recoveryArgs setting.numThreads).outputWords :=
    @KernelArgs.word_inside (archive.recoveryArgs setting.numThreads) r word row below
  rw [recoveryArgs_product setting.numThreads below] at sum
  refine sum.trans ?_
  rw [KernelArgs.cleared]
  exact (congrArg (· + _) (if_pos clear)).trans (zero_add _)

theorem finalizeRecovery_exists (inMemory : archive.InMemory) (nonempty : 0 < archive.totalBlocks)
    (some : 0 < archive.recoverySlices) (setting : RecoverySetting)
    (accumulator : Words) (full : setting.engine.compute_recovery_full = true)
    (fenger : setting.env.PAR3_GF64_USE_FENGER = .forced → setting.engine.compute_recovery_fenger = true) :
    ∃ last, archive.finalizeRecovery setting accumulator last := by
  have accepted := recoveryArgs_accepted inMemory nonempty some setting.numThreads
  unfold finalizeRecovery
  dsimp only
  split
  · exact RecoveryEngine.computeFenger_exists _ _ accepted.checkFenger_ok accepted.inputs_small
      accepted.recovery_small
  · split
    · exact RecoveryEngine.computeBarycentric_exists _ accepted _ _
    · obtain ⟨last, dispatched⟩ := RecoveryEngine.dispatchRecovery_exists setting.engine setting.env
        accumulator accepted full fenger
      exact ⟨last, .inr dispatched⟩

/-! ## The packets -/

variable {blake3 : Hash}

theorem recoveryPacket_bytes (row : ℕ) :
    Par3.recoveryPacket blake3 archive.inputSetId (archive.totalBlocks + row) (archive.recoveryBlock row) =
      (archive.recoveryPacket blake3 row).bytes := by
  rw [Par3.recoveryPacket, CreatedPacket.packet, CreatedPacket.body, writeUInt64LE_eq, writeUInt64LE_eq]
  rfl

/-- The packets that are made of the accumulator, with the binding or without it. -/
theorem finalizeRecoveryBlocks_eq (inMemory : archive.InMemory)
    (finalized : archive.finalizeRecovery setting accumulator last) (binding : Bool) (memory : ℕ → ℕ → UInt8) :
    archive.finalizeRecoveryBlocks blake3 binding memory last =
      .ok ((List.range archive.recoveryPackets).map fun row => (archive.recoveryPacket blake3 row).bytes) := by
  rw [finalizeRecoveryBlocks]
  split
  · rename_i none
    have packets : archive.recoveryPackets = 0 := by
      unfold recoveryPackets
      split
      · rfl
      · omega
    rw [packets]
    rfl
  · rename_i some
    obtain ⟨rows, nonempty⟩ := not_or.mp some
    have blocks := archive.totalBlocks_le
    have recovery := inMemory.recovery_small
    have entries : recoveryEntries (.number archive.totalBlocks) archive.recoverySlices
        (archive.accumulatorBlock last) =
        recoveryEntries (.number archive.totalBlocks) archive.recoverySlices archive.recoveryBlock :=
      List.map_congr_left fun r member => congrArg (RecoveryEntry.mk _)
        (accumulatorBlock_eq inMemory (Nat.pos_of_ne_zero nonempty) finalized (List.mem_range.mp member))
    have exactly (row : ℕ) (inside : row < archive.recoverySlices) :
        roundDouble (archive.totalBlocks + row) = archive.totalBlocks + row :=
      roundDouble_of_lt _ (by omega)
    rw [entries, recoveryPackets, if_neg nonempty]
    cases binding
    · rw [createRecoveryPackets_each archive.inputSetId_length]
      refine congrArg Except.ok (List.map_congr_left fun row member => ?_)
      rw [exactly row (List.mem_range.mp member), recoveryPacket_bytes]
    · have index : ((JsInteger.number archive.totalBlocks).plus 0).int64 = archive.totalBlocks := by
        rw [JsInteger.plus, exactly 0 (Nat.pos_of_ne_zero rows), JsInteger.int64]
        omega
      unfold InMemory at inMemory
      rw [createRecoveryPackets_native archive.recoveryBlock_length (Nat.pos_of_ne_zero rows)
        archive.blockSize_pos (by omega) archive.inputSetId_length, index]
      refine congrArg Except.ok (List.map_congr_left fun row member => ?_)
      have inside := List.mem_range.mp member
      rw [Nat.mod_eq_of_lt (by omega), recoveryPacket_bytes]

end Archive

/-! ## Repair -/

namespace Damage

variable {blake3 : Hash} (damage : Damage blake3) (archive : Archive)

/-- The file that is left, with the RECOVERY packets that create has written. -/
def createdFile (packets : List Buffer) : Buffer :=
  (archive.headerPackets blake3 ++ (List.range archive.totalBlocks).filterMap fun index =>
    (damage.data index).apply (archive.dataPacket blake3 index)).flatMap RawPacket.bytes ++ packets.flatten

variable {damage archive}

/-- No RECOVERY packet is lost. -/
def RecoveryIntact (damage : Damage blake3) : Prop := ∀ row, damage.recovery row = .intact

theorem RecoveryIntact.lostRecovery (intact : damage.RecoveryIntact) : damage.lostRecovery archive = [] := by
  refine List.filter_eq_nil_iff.mpr fun row _ => ?_
  rw [intact row]
  decide

theorem RecoveryIntact.createdFile_eq (intact : damage.RecoveryIntact) :
    damage.createdFile archive ((List.range archive.recoveryPackets).map fun row =>
      (archive.recoveryPacket blake3 row).bytes) = damage.file archive := by
  have kept : (List.range archive.recoveryPackets).filterMap (fun row =>
      (damage.recovery row).apply (archive.recoveryPacket blake3 row)) =
      (List.range archive.recoveryPackets).map (archive.recoveryPacket blake3) := by
    rw [← List.filterMap_eq_map]
    refine List.filterMap_congr fun row _ => ?_
    rw [intact row]
    rfl
  rw [createdFile, file, packets, kept]
  simp only [List.flatMap_append]
  rw [List.flatMap_map]
  rfl

theorem RecoveryIntact.restores_iff (intact : damage.RecoveryIntact) (backend : Backend)
    (nonempty : 0 < archive.totalBlocks)
    (full : ∀ index ∈ damage.survivors archive,
      (archive.blockData.getD index []).length = archive.blockSize) :
    damage.restoresLostInputs archive backend ↔
      (damage.lostInputs archive).length ≤ archive.recoverySlices := by
  have none : damage.lostRecovery archive = [] := intact.lostRecovery
  have packets : archive.recoveryPackets = archive.recoverySlices := if_neg nonempty.ne'
  constructor
  · intro restores
    obtain ⟨-, ⟨nothing, -⟩ | ⟨solvable, -⟩⟩ := (damage.restoresLostInputs_iff archive backend).mp restores
    · rw [nothing]
      exact Nat.zero_le _
    · have enough := solvable.equations
      rwa [none, packets] at enough
  · intro few
    refine damage.restoresLostInputs_of_late archive backend nonempty ?_ ?_ (fun _ => none) full
    · rw [damage.equations_iff, none, packets]
      exact few
    · intro row lost
      rw [none] at lost
      cases lost

end Damage

/-- Whichever kernel was chosen, with any number of threads, any contents of the accumulator and its caches,
and with the native packet assembly or without it: with a block and a recovery slice the call returns, and
the packets that are written are the RECOVERY packets of the archive. -/
theorem Archive.recovery_created (archive : Archive) (inMemory : archive.InMemory) (setting : RecoverySetting)
    (accumulator : Words) :
    (0 < archive.totalBlocks → 0 < archive.recoverySlices → setting.engine.compute_recovery_full = true →
      (setting.env.PAR3_GF64_USE_FENGER = .forced → setting.engine.compute_recovery_fenger = true) →
      ∃ last, archive.finalizeRecovery setting accumulator last) ∧
    ∀ last, archive.finalizeRecovery setting accumulator last →
      ∀ (blake3 : Hash) (binding : Bool) (memory : ℕ → ℕ → UInt8),
        archive.finalizeRecoveryBlocks blake3 binding memory last =
          .ok ((List.range archive.recoveryPackets).map fun row => (archive.recoveryPacket blake3 row).bytes) :=
  ⟨fun nonempty some => finalizeRecovery_exists inMemory nonempty some setting accumulator,
    fun _ finalized _ binding memory =>
    finalizeRecoveryBlocks_eq inMemory finalized binding memory⟩

/-- One call for one block, by the whole matrix. -/
def matvecSetting : RecoverySetting := ⟨allKernels, limitedEnv .disabled fortyBytes, .matvec, 0⟩

theorem oneBlock_nonempty : 0 < oneBlock.totalBlocks := by
  rw [oneBlock_totalBlocks]
  exact Nat.one_pos

theorem oneBlock_inMemory : oneBlock.InMemory := show 2 * 1024 ≤ 512 * 1024 * 1024 by norm_num

theorem recovery_created_oneBlock : ∃ last, oneBlock.finalizeRecovery matvecSetting (fun _ => 1) last ∧
    oneBlock.finalizeRecoveryBlocks byteSum true (fun _ _ => 7) last =
      .ok ((List.range oneBlock.recoveryPackets).map fun row => (oneBlock.recoveryPacket byteSum row).bytes) := by
  obtain ⟨returns, created⟩ := oneBlock.recovery_created oneBlock_inMemory matvecSetting fun _ => 1
  obtain ⟨last, finalized⟩ := returns oneBlock_nonempty (by decide) rfl nofun
  exact ⟨last, finalized, created last finalized byteSum true fun _ _ => 7⟩

/-- When no short block survives, repair restores every lost block from the packets that create has made of
the accumulator if and only if no more blocks are lost than there are recovery blocks. -/
theorem Damage.created_repaired_iff {blake3 : Hash} (damage : Damage blake3) (archive : Archive)
    (nonempty : 0 < archive.totalBlocks) (inMemory : archive.InMemory) (intact : damage.RecoveryIntact)
    (full : ∀ index ∈ damage.survivors archive,
      (archive.blockData.getD index []).length = archive.blockSize)
    (setting : RecoverySetting) (accumulator last : Words)
    (finalized : archive.finalizeRecovery setting accumulator last) (binding : Bool)
    (memory : ℕ → ℕ → UInt8) (backend : Backend) :
    ∃ packets, archive.finalizeRecoveryBlocks blake3 binding memory last = .ok packets ∧
      ((∃ result, par3_repair blake3 backend (damage.createdFile archive packets) = .ok result ∧
        ∀ index ∈ damage.lostInputs archive, (index, archive.inputBlock index) ∈ result.blockFiles) ↔
      (damage.lostInputs archive).length ≤ archive.recoverySlices) := by
  refine ⟨_, Archive.finalizeRecoveryBlocks_eq inMemory finalized binding memory, ?_⟩
  rw [intact.createdFile_eq]
  exact intact.restores_iff backend nonempty full

/-- All bindings are there, and new memory is zero. -/
def nativeBackend : Backend := ⟨true, true, true, fun _ _ => 0⟩

/-- DATA packets that are all lost are no damaged ones. -/
theorem lost_data_fails (blake3 : Hash) : ∀ (index : ℕ) replacement,
    (fun _ : ℕ => Fate.lost) index = .damaged replacement →
      replacement.WellFormed ∧ replacement.type = .DATA ∧ replacement.valid blake3 = false := by
  intro index replacement fate
  cases fate

/-- The DATA packet is dropped. -/
def dataLost (blake3 : Hash) : Damage blake3 where
  data := fun _ => .lost
  recovery := fun _ => .intact
  data_fails := lost_data_fails blake3
  recovery_fails := intact_recovery_fails blake3

theorem created_repaired_oneBlock : ∃ last, oneBlock.finalizeRecovery matvecSetting (fun _ => 1) last ∧
    ∃ packets, oneBlock.finalizeRecoveryBlocks byteSum false (fun _ _ => 7) last = .ok packets ∧
      ∃ result, par3_repair byteSum nativeBackend ((dataLost byteSum).createdFile oneBlock packets) = .ok result ∧
        ∀ index ∈ (dataLost byteSum).lostInputs oneBlock, (index, oneBlock.inputBlock index) ∈ result.blockFiles := by
  obtain ⟨last, finalized⟩ :=
    Archive.finalizeRecovery_exists oneBlock_inMemory oneBlock_nonempty (by decide) matvecSetting (fun _ => 1)
      rfl nofun
  have none (index : ℕ) (survives : index ∈ (dataLost byteSum).survivors oneBlock) :
      (oneBlock.blockData.getD index []).length = oneBlock.blockSize := by
    rw [Damage.survivors, List.mem_filter] at survives
    cases survives.2
  obtain ⟨packets, created, repaired⟩ := (dataLost byteSum).created_repaired_iff oneBlock oneBlock_nonempty
    oneBlock_inMemory (fun _ => rfl) none matvecSetting (fun _ => 1) last finalized false (fun _ _ => 7)
    nativeBackend
  refine ⟨last, finalized, packets, created, repaired.mpr ?_⟩
  rw [Damage.lostInputs, oneBlock_totalBlocks]
  decide

end Par3
