import Par3.DamagedArchive
import Par3.RightHandSide

/-!
# Repair of a damaged archive

Repair of a damaged archive is followed from the map of available blocks to the solved
system. The missing list is the lost inputs followed by the lost recovery blocks, every
coefficient is that of the code, and the right-hand side is the contribution of the lost
inputs plus an error: the recovery block itself in rows whose RECOVERY packet is lost, and
what each surviving window holds beyond its padded block.
-/

namespace Par3

/-! ## Numbers that are exact -/

theorem gf64OfNat_xor (left right : ℕ) :
    gf64OfNat (left ^^^ right) = gf64OfNat left + gf64OfNat right :=
  BinaryField.Word.ext BitVec.ofNat_xor

/-- Indices that fit a word cancel only when they are equal. -/
theorem gf64OfNat_add_eq_zero {left right : ℕ} (leftFits : left < 2 ^ 64)
    (rightFits : right < 2 ^ 64) : gf64OfNat left + gf64OfNat right = 0 ↔ left = right := by
  rw [CharTwo.add_eq_zero]
  exact ⟨gf64OfNat_injective leftFits rightFits, fun same => same ▸ rfl⟩

/-- The fallback's coefficient is the code's for exact indices. -/
theorem fallbackCoefficient_eq (firstRec eq missingIdx : ℕ) (row : firstRec + eq < 2 ^ 53)
    (column : missingIdx < 2 ^ 53) :
    fallbackCoefficient 0 firstRec eq missingIdx = cauchyCoefficient 0 firstRec eq missingIdx := by
  have rowExact : double ((firstRec : ℤ) + (eq : ℤ)) = (firstRec + eq : ℕ) := by
    rw [← Nat.cast_add]
    exact double_natCast _ row
  have columnExact : double (((0 : ℕ) : ℤ) + (missingIdx : ℤ)) = (missingIdx : ℕ) := by
    rw [Nat.cast_zero, zero_add]
    exact double_natCast _ column
  have zero := @gf64OfNat_add_eq_zero missingIdx (firstRec + eq) (by omega) (by omega)
  unfold fallbackCoefficient cauchyCoefficient
  simp only [rowExact, columnExact, Int.toNat_natCast, Nat.zero_add, zero, gf64OfNat_xor]
  by_cases same : missingIdx = firstRec + eq
  · rw [if_pos same.symm, if_pos same]
  · rw [if_neg (Ne.symm same), if_neg same, add_comm]

/-! ## The map of available blocks -/

/-- A loop that sets the entries from `base` on that have a value. -/
theorem foldl_set_range (base : ℕ) (value : ℕ → Option Buffer) (count : ℕ) (map : BlockMap)
    (index : ℕ) :
    ((List.range count).filterMap fun i => (value i).map (Prod.mk (base + i))).foldl
        (fun (map : BlockMap) block => map.set block.1 block.2) map index =
      if base ≤ index ∧ index < base + count then (value (index - base)).or (map index)
      else map index := by
  induction count with
  | zero => simp
  | succ count ih =>
    rw [List.range_succ, List.filterMap_append, List.foldl_append]
    cases found : value count with
    | none =>
      simp only [List.filterMap_cons, List.filterMap_nil, found, Option.map_none, List.foldl_nil,
        ih]
      by_cases last : index = base + count
      · subst last
        simp [found]
      · have same : (base ≤ index ∧ index < base + count) ↔
            (base ≤ index ∧ index < base + (count + 1)) := by omega
        simp only [same]
    | some data =>
      simp only [List.filterMap_cons, List.filterMap_nil, found, Option.map_some, List.foldl_cons,
        List.foldl_nil, BlockMap.set, ih]
      by_cases last : index = base + count
      · subst last
        simp [found]
      · have same : (base ≤ index ∧ index < base + count) ↔
            (base ≤ index ∧ index < base + (count + 1)) := by omega
        simp only [same, if_neg last]

/-- The index of every recovery block is exact. -/
theorem Archive.exact_total (archive : Archive) (row : ℕ) (inside : row < archive.recoveryPackets) :
    archive.totalBlocks + row < 2 ^ 53 := by
  have blocks := archive.totalBlocks_le
  have slices := archive.recoverySlices_small
  have packets := archive.recoveryPackets_le
  omega

namespace Damage

variable {blake3 : Hash} (damage : Damage blake3) (archive : Archive)

/-- The entry of the map for an input. -/
def inputEntry (index : ℕ) : Option Buffer :=
  if (damage.data index).survives then some (damage.readBlock archive index) else none

/-- The entry of the map for a recovery block. -/
def recoveryEntry (row : ℕ) : Option Buffer :=
  if (damage.recovery row).survives then some (archive.recoveryBlock row) else none

/-- The map that repair builds. -/
def available : BlockMap :=
  buildAvailableMap archive.blockSize (damage.dataBlocks archive) (damage.recoveryData archive)

/-- Recovery data as entries of a map. -/
theorem recoveryData_entries :
    (damage.recoveryData archive).map (fun rec => (rec.first_block, rec.data)) =
      (List.range archive.recoveryPackets).filterMap fun row =>
        (damage.recoveryEntry archive row).map (Prod.mk (archive.totalBlocks + row)) := by
  rw [recoveryData, List.map_filterMap]
  refine List.filterMap_congr fun row _ => ?_
  unfold recoveryEntry
  split <;> simp

/-- Inputs come from the windows and recovery blocks from their packets. -/
theorem available_eq (index : ℕ) :
    damage.available archive index =
      if index < archive.totalBlocks then damage.inputEntry archive index
      else if index < archive.totalBlocks + archive.recoveryPackets then
        damage.recoveryEntry archive (index - archive.totalBlocks)
      else none := by
  have inputs : (damage.dataBlocks archive).map (fun block => (block.block_index, block.data)) =
      (List.range archive.totalBlocks).filterMap fun i =>
        (damage.inputEntry archive i).map (Prod.mk (0 + i)) := by
    rw [dataBlocks, List.map_filterMap]
    refine List.filterMap_congr fun i _ => ?_
    unfold inputEntry
    split <;> simp
  -- A RECOVERY packet of the archive stands for one block.
  have single (map : BlockMap) (rec : RecoveryData) (member : rec ∈ damage.recoveryData archive) :
      (List.range rec.block_count).foldl
        (fun map bi => map.set (double (rec.first_block + (bi : ℕ))).toNat
          (slice rec.data (bi * archive.blockSize) ((bi + 1) * archive.blockSize))) map =
        map.set rec.first_block rec.data := by
    obtain ⟨row, inside, found⟩ := List.mem_filterMap.mp member
    split at found
    · obtain rfl := Option.some.inj found
      have exact := double_natCast _ (archive.exact_total row (List.mem_range.mp inside))
      have whole : slice (archive.recoveryBlock row) 0 archive.blockSize =
          archive.recoveryBlock row := by
        rw [slice, List.drop_zero, Nat.sub_zero, ← archive.recoveryBlock_length row,
          List.take_length]
      simp only [List.range_one, List.foldl_cons, List.foldl_nil, Nat.cast_zero, add_zero, exact,
        Int.toNat_natCast, Nat.zero_mul, Nat.zero_add, Nat.one_mul, whole]
    · simp at found
  unfold available buildAvailableMap
  rw [List.foldl_ext _ (fun map rec => map.set rec.first_block rec.data) _ single]
  have asPairs := @List.foldl_map _ _ _ (fun rec : RecoveryData => (rec.first_block, rec.data))
    (fun (map : BlockMap) block => map.set block.1 block.2)
  have asInputs := @List.foldl_map _ _ _ (fun block : DataBlock => (block.block_index, block.data))
    (fun (map : BlockMap) block => map.set block.1 block.2)
  rw [← asPairs, ← asInputs, inputs, recoveryData_entries, foldl_set_range, foldl_set_range]
  by_cases input : index < archive.totalBlocks
  · have notRecovery : ¬ (archive.totalBlocks ≤ index ∧
        index < archive.totalBlocks + archive.recoveryPackets) := by omega
    rw [if_neg notRecovery, if_pos ⟨Nat.zero_le _, by omega⟩, if_pos input, Nat.sub_zero,
      Option.or_none]
  · have notInput : ¬ (0 ≤ index ∧ index < 0 + archive.totalBlocks) := by omega
    have behind : archive.totalBlocks ≤ index := by omega
    rw [if_neg notInput, if_neg input]
    simp only [behind, true_and, Option.or_none]

/-! ## What repair decides -/

/-- The missing list: lost inputs, then lost recovery blocks behind all inputs. -/
def missing : List ℕ :=
  damage.lostInputs archive ++ (damage.lostRecovery archive).map (archive.totalBlocks + ·)

/-- What repair knows after both passes. -/
def state : RepairState where
  startPacket := archive.startPacket
  matrix := archive.matrixPacket
  totalInputBlocks := archive.matrixPacket.inputCount
  totalRecoveryBlocks := archive.recoverySlices
  dataBlocks := damage.dataBlocks archive
  recoveryData := damage.recoveryData archive

theorem missingBlocks_eq :
    missingBlocks (damage.available archive) (archive.totalBlocks + archive.recoveryPackets) =
      damage.missing archive := by
  have inputs : (List.range archive.totalBlocks).filter
      (fun index => (damage.available archive index).isNone) = damage.lostInputs archive := by
    refine List.filter_congr fun index member => ?_
    rw [available_eq, if_pos (List.mem_range.mp member), inputEntry]
    cases (damage.data index).survives <;> rfl
  have recovery : ((List.range archive.recoveryPackets).map (archive.totalBlocks + ·)).filter
      (fun index => (damage.available archive index).isNone) =
      (damage.lostRecovery archive).map (archive.totalBlocks + ·) := by
    rw [List.filter_map, lostRecovery]
    congr 1
    refine List.filter_congr fun row member => ?_
    have inside := List.mem_range.mp member
    rw [Function.comp_apply, available_eq, if_neg (by omega), if_pos (by omega), recoveryEntry,
      Nat.add_sub_cancel_left]
    cases (damage.recovery row).survives <;> rfl
  rw [missingBlocks, List.range_add, List.filter_append, inputs, recovery, missing]

theorem missing_length : (damage.missing archive).length =
    (damage.lostInputs archive).length + (damage.lostRecovery archive).length := by
  rw [missing, List.length_append, List.length_map]

/-- What is not lost is read. -/
theorem recoveryData_length : (damage.recoveryData archive).length +
    (damage.lostRecovery archive).length = archive.recoveryPackets := by
  have counts := @List.length_eq_length_filter_add _ (List.range archive.recoveryPackets)
    fun row => (damage.recovery row).survives
  rw [List.length_range] at counts
  have read : (damage.recoveryData archive).length =
      ((List.range archive.recoveryPackets).filter fun row => (damage.recovery row).survives).length := by
    rw [recoveryData, List.length_filterMap_eq_countP, List.countP_eq_length_filter]
    congr 1
    refine List.filter_congr fun row _ => ?_
    cases (damage.recovery row).survives <;> rfl
  rw [read, lostRecovery]
  exact counts.symm

theorem inputCount_eq (nonempty : 0 < archive.totalBlocks) :
    archive.matrixPacket.inputCount = archive.totalBlocks := by
  have small := archive.totalBlocks_le
  have difference : double ((archive.totalBlocks - 1 : ℕ) - (0 : ℕ)) =
      (archive.totalBlocks - 1 : ℕ) := by
    rw [Nat.cast_zero, sub_zero]
    exact double_natCast _ (by omega)
  have sum : ((archive.totalBlocks - 1 : ℕ) : ℤ) + 1 = (archive.totalBlocks : ℕ) := by omega
  rw [MatrixPacket.inputCount, Archive.matrixPacket]
  simp only [if_pos nonempty]
  rw [difference, sum]
  exact double_natCast _ (by omega)

/-- A recovery packet of the archive is never a loop that does not end. -/
theorem recoveryData_single (rec : RecoveryData) (member : rec ∈ damage.recoveryData archive) :
    rec.block_count = 1 := by
  obtain ⟨row, _, found⟩ := List.mem_filterMap.mp member
  split at found
  · obtain rfl := Option.some.inj found
    rfl
  · simp at found

/-- Repair of a damaged archive with blocks, up to the reconstruction. -/
theorem par3_repair_file (backend : Backend) (nonempty : 0 < archive.totalBlocks) :
    par3_repair blake3 backend (damage.file archive) =
      if (damage.missing archive).length = 0 then
        .ok {
          blocksRepaired := (damage.dataBlocks archive).length
          missingBlockList := []
          recoveryBlockList := (damage.state archive).recoveryBlockList
          matrixInfo := archive.matrixPacket
          usedNativeMatrix := false
          blockFiles := []
          blocks := (damage.dataBlocks archive).map DataBlock.data }
      else if archive.recoverySlices < (damage.missing archive).length then
        .error (.tooManyMissing (damage.missing archive).length archive.recoverySlices)
      else if (damage.recoveryData archive).length < (damage.missing archive).length then
        .error (.notEnoughRecovery (damage.recoveryData archive).length
          (damage.missing archive).length)
      else reconstruct backend (damage.state archive) (damage.available archive)
        (damage.missing archive) := by
  have blocks := archive.totalBlocks_le
  have slices := archive.recoverySlices_small
  have list : missingBlocks (damage.available archive)
      (archive.totalBlocks + archive.recoverySlices) = damage.missing archive := by
    rw [← missingBlocks_eq, Archive.recoveryPackets, if_neg (by omega)]
  have total : double ((archive.totalBlocks : ℤ) + (archive.recoverySlices : ℤ)) =
      (archive.totalBlocks + archive.recoverySlices : ℕ) := by
    rw [← Nat.cast_add]
    exact double_natCast _ (by omega)
  have ends : ¬ (2 ^ 53 < ((archive.totalBlocks + archive.recoverySlices : ℕ) : ℤ) ∨
      (damage.recoveryData archive).any (fun rec => decide (2 ^ 53 < rec.block_count)) = true) := by
    rintro (large | long)
    · omega
    · obtain ⟨rec, member, large⟩ := List.any_eq_true.mp long
      rw [damage.recoveryData_single archive rec member] at large
      simp at large
  have map : buildAvailableMap archive.startPacket.block_size (damage.dataBlocks archive)
      (damage.recoveryData archive) = damage.available archive := rfl
  rw [par3_repair, readArchive_file]
  simp only [inputCount_eq archive nonempty, total, if_neg ends, map, Int.toNat_natCast, list,
    Nat.cast_lt, state]

/-- An archive without blocks is declared with one input, which is then missing together
with every recovery block. -/
theorem par3_repair_empty (backend : Backend) (empty : archive.totalBlocks = 0) :
    par3_repair blake3 backend (damage.file archive) =
      .error (.tooManyMissing (1 + archive.recoverySlices) archive.recoverySlices) := by
  have slices := archive.recoverySlices_small
  have packets : archive.recoveryPackets = 0 := if_pos empty
  have count : archive.matrixPacket.inputCount = 1 := by
    simp [MatrixPacket.inputCount, Archive.matrixPacket, empty, double]
    decide
  have noData : damage.dataBlocks archive = [] := by simp [dataBlocks, empty]
  have noRecovery : damage.recoveryData archive = [] := by simp [recoveryData, packets]
  have total : double (1 + (archive.recoverySlices : ℤ)) = (1 + archive.recoverySlices : ℕ) := by
    have exact := double_natCast (1 + archive.recoverySlices) (by omega)
    rwa [Nat.cast_add, Nat.cast_one] at exact
  have nothing : missingBlocks (buildAvailableMap archive.startPacket.block_size [] [])
      (1 + archive.recoverySlices) = List.range (1 + archive.recoverySlices) := by
    simp [missingBlocks, buildAvailableMap]
  have ends : ¬ (2 ^ 53 < ((1 + archive.recoverySlices : ℕ) : ℤ) ∨
      ([] : List RecoveryData).any (fun rec => decide (2 ^ 53 < rec.block_count)) = true) := by
    simp
    omega
  rw [par3_repair, readArchive_file]
  simp only [count, noData, noRecovery, total, if_neg ends, Int.toNat_natCast, nothing,
    List.length_range]
  rw [if_neg (by omega), if_pos (by omega)]

end Damage

end Par3
