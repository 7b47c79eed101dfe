import Par3.RepairDamaged

/-!
# The system of a damaged archive

When enough RECOVERY packets survive, repair sets up one equation for each missing block.
Its coefficients are those of the code and its unknowns are the lost inputs together with
the lost recovery blocks, which take part as if they were inputs. The right-hand side is
the contribution of the lost inputs plus an error: the recovery block itself in rows whose
RECOVERY packet is lost, and what the window of each surviving block holds beyond the
padded block.
-/

namespace Par3

/-- An entry of the native matrix. -/
theorem readNativeMatrix_entry {totalInputs n eq index : ℕ} (firstInp firstRec : ℕ) (row : eq < n)
    (input : index < totalInputs) :
    readNativeMatrix totalInputs n firstInp firstRec (eq * totalInputs + index) =
      some (cauchyCoefficient (int64Argument firstInp) (int64Argument firstRec) eq index) := by
  have pos : 0 < totalInputs := by omega
  have room := Nat.mul_le_mul_right totalInputs (show eq + 1 ≤ n from row)
  rw [Nat.succ_mul] at room
  have quotient : (eq * totalInputs + index) / totalInputs = eq := by
    rw [Nat.mul_comm, Nat.mul_add_div pos, Nat.div_eq_of_lt input, Nat.add_zero]
  have remainder : (eq * totalInputs + index) % totalInputs = index := by
    rw [Nat.mul_comm, Nat.mul_add_mod, Nat.mod_eq_of_lt input]
  rw [readNativeMatrix, if_pos (by omega), quotient, remainder]

/-- The coefficient of a block in an equation of this archive. -/
def Archive.coefficient (archive : Archive) (eq index : ℕ) : Gf64 :=
  cauchyCoefficient 0 archive.totalBlocks eq index

namespace Damage

variable {blake3 : Hash} (damage : Damage blake3) (archive : Archive) (backend : Backend)

/-- The input blocks whose DATA packet is intact, in order. -/
def survivors : List ℕ :=
  (List.range archive.totalBlocks).filter fun index => (damage.data index).survives

/-- Whether repair takes its coefficients from the native matrix. -/
def nativeUsed : Bool :=
  backend.native && backend.nativeMatrix &&
    decide ((damage.missing archive).length * archive.totalBlocks ≤ REPAIR_COEFF_MATRIX_MAX_ENTRIES)

theorem mem_lostInputs (index : ℕ) : index ∈ damage.lostInputs archive ↔
    index < archive.totalBlocks ∧ (damage.data index).survives = false := by
  simp [lostInputs]

theorem mem_lostRecovery (row : ℕ) : row ∈ damage.lostRecovery archive ↔
    row < archive.recoveryPackets ∧ (damage.recovery row).survives = false := by
  simp [lostRecovery]

theorem mem_missing (index : ℕ) : index ∈ damage.missing archive ↔
    index ∈ damage.lostInputs archive ∨
      ∃ row ∈ damage.lostRecovery archive, archive.totalBlocks + row = index := by
  simp [missing]

/-- Every missing index is exact. -/
theorem missing_exact {index : ℕ} (member : index ∈ damage.missing archive) : index < 2 ^ 53 := by
  rcases (damage.mem_missing archive index).mp member with input | ⟨row, lost, rfl⟩
  · have inside := ((damage.mem_lostInputs archive index).mp input).1
    have small := archive.totalBlocks_le
    omega
  · exact archive.exact_total row ((damage.mem_lostRecovery archive row).mp lost).1

theorem missing_nodup : (damage.missing archive).Nodup := by
  refine List.nodup_append'.mpr ⟨List.nodup_range.filter _, ?_, ?_⟩
  · exact (List.nodup_range.filter _).map fun first second same => Nat.add_left_cancel same
  · intro index input recovery
    obtain ⟨row, _, rfl⟩ := List.mem_map.mp recovery
    have inside := ((damage.mem_lostInputs archive _).mp input).1
    omega

section Reconstruction

variable (nonempty : 0 < archive.totalBlocks) (lossy : 0 < (damage.missing archive).length)

/-! ## Coefficients -/

include nonempty lossy in
theorem nativeM_eq : (damage.state archive).nativeM backend (damage.missing archive).length =
    if damage.nativeUsed archive backend then
      some (readNativeMatrix archive.totalBlocks (damage.missing archive).length 0
        archive.totalBlocks)
    else none := by
  have apart : ¬ (((0 : ℕ) : ℤ) < double ((archive.totalBlocks : ℤ) + (damage.missing archive).length) ∧
      (archive.totalBlocks : ℤ) < double (((0 : ℕ) : ℤ) + (archive.totalBlocks : ℤ))) := by
    rintro ⟨_, overlap⟩
    rw [Nat.cast_zero, zero_add, double_natCast _ (by have := archive.totalBlocks_le; omega)]
      at overlap
    exact absurd overlap (lt_irrefl _)
  have allowed : repairNativeMatrixAllowed archive.totalBlocks (damage.missing archive).length 0
      archive.totalBlocks REPAIR_COEFF_MATRIX_MAX_ENTRIES =
      decide ((damage.missing archive).length * archive.totalBlocks ≤
        REPAIR_COEFF_MATRIX_MAX_ENTRIES) := by
    have something : ¬ ((damage.missing archive).length ≤ 0 ∨ (archive.totalBlocks : ℤ) ≤ 0) := by
      omega
    rw [repairNativeMatrixAllowed, if_neg something, if_neg apart]
    by_cases large : REPAIR_COEFF_MATRIX_MAX_ENTRIES <
        (damage.missing archive).length * archive.totalBlocks
    · rw [if_pos (by exact_mod_cast large), decide_eq_false (by omega)]
    · rw [if_neg (by exact_mod_cast large), decide_eq_true (by omega)]
  have inputs : (damage.state archive).totalInputBlocks = archive.totalBlocks :=
    inputCount_eq archive nonempty
  have firstInput : (damage.state archive).matrix.first_input = 0 := rfl
  have firstRecovery : (damage.state archive).matrix.first_recovery = archive.totalBlocks := rfl
  rw [RepairState.nativeM, inputs, firstInput, firstRecovery, Int.toNat_natCast]
  simp only [allowed]
  rfl

include nonempty lossy in
/-- For an input the matrix and the fallback hold the same coefficient. -/
theorem coefficientOf_input (eq index : ℕ) (row : eq < (damage.missing archive).length)
    (rowExact : archive.totalBlocks + eq < 2 ^ 53) (input : index < archive.totalBlocks) :
    (damage.state archive).coefficientOf
        ((damage.state archive).nativeM backend (damage.missing archive).length) eq index =
      some (archive.coefficient eq index) := by
  have small := archive.totalBlocks_le
  rw [damage.nativeM_eq archive backend nonempty lossy]
  split
  · have first : int64Argument 0 = 0 := rfl
    have second : int64Argument archive.totalBlocks = archive.totalBlocks := by
      rw [int64Argument, Nat.min_eq_left (by omega)]
    simp only [RepairState.coefficientOf, state, inputCount_eq archive nonempty,
      Int.toNat_natCast]
    rw [readNativeMatrix_entry _ _ row input, first, second, Archive.coefficient]
  · exact congrArg some (fallbackCoefficient_eq archive.totalBlocks eq index rowExact (by omega))

include nonempty lossy in
/-- The native matrix has no columns for recovery blocks: its last row ends at the last
input. -/
theorem coefficientOf_native (used : damage.nativeUsed archive backend = true) (row : ℕ) :
    (damage.state archive).coefficientOf
      ((damage.state archive).nativeM backend (damage.missing archive).length)
      ((damage.missing archive).length - 1) (archive.totalBlocks + row) = none := by
  have last : ((damage.missing archive).length - 1) * archive.totalBlocks + archive.totalBlocks =
      (damage.missing archive).length * archive.totalBlocks := by
    rw [← Nat.succ_mul]
    congr 1
    omega
  rw [damage.nativeM_eq archive backend nonempty lossy, if_pos used]
  simp only [RepairState.coefficientOf, state, inputCount_eq archive nonempty, Int.toNat_natCast]
  rw [readNativeMatrix, if_neg (by omega)]

include nonempty lossy in
/-- Without the native matrix every missing block has the coefficient of the code. -/
theorem coefficientOf_fallback (unused : damage.nativeUsed archive backend = false)
    (eq index : ℕ) (rowExact : archive.totalBlocks + eq < 2 ^ 53) (columnExact : index < 2 ^ 53) :
    (damage.state archive).coefficientOf
        ((damage.state archive).nativeM backend (damage.missing archive).length) eq index =
      some (archive.coefficient eq index) := by
  rw [damage.nativeM_eq archive backend nonempty lossy, unused]
  exact congrArg some (fallbackCoefficient_eq archive.totalBlocks eq index rowExact columnExact)

/-- Enough RECOVERY packets survive for one equation each. -/
def equations : Prop :=
  (damage.missing archive).length ≤ (damage.recoveryData archive).length

variable (enough : damage.equations archive)

include enough in
theorem equation_inside {eq : ℕ} (row : eq < (damage.missing archive).length) :
    eq < archive.recoveryPackets := by
  have counts := damage.recoveryData_length archive
  unfold equations at enough
  omega

include nonempty lossy enough in
/-- Reading an entry fails exactly when the native matrix is asked for a recovery block. -/
theorem entries_isNone :
    (((List.range (damage.missing archive).length).any fun eq =>
      (damage.missing archive).any fun index =>
        ((damage.state archive).coefficientOf
          ((damage.state archive).nativeM backend (damage.missing archive).length) eq
          index).isNone) = true) ↔
      damage.nativeUsed archive backend = true ∧ damage.lostRecovery archive ≠ [] := by
  have rowExact (eq : ℕ) (row : eq < (damage.missing archive).length) :=
    archive.exact_total eq (damage.equation_inside archive enough row)
  constructor
  · intro fails
    obtain ⟨eq, row, fails⟩ := List.any_eq_true.mp fails
    obtain ⟨index, member, fails⟩ := List.any_eq_true.mp fails
    have row := List.mem_range.mp row
    by_cases used : damage.nativeUsed archive backend = true
    · refine ⟨used, fun none => ?_⟩
      have input : index < archive.totalBlocks := by
        rcases (damage.mem_missing archive index).mp member with lost | ⟨_, lost, _⟩
        · exact ((damage.mem_lostInputs archive index).mp lost).1
        · rw [none] at lost
          cases lost
      rw [damage.coefficientOf_input archive backend nonempty lossy eq index row
        (rowExact eq row) input] at fails
      cases fails
    · rw [damage.coefficientOf_fallback archive backend nonempty lossy
        (Bool.eq_false_iff.mpr used) eq index (rowExact eq row)
        (damage.missing_exact archive member)] at fails
      cases fails
  · rintro ⟨used, some⟩
    obtain ⟨row, lost⟩ := List.exists_mem_of_ne_nil _ some
    refine List.any_eq_true.mpr ⟨(damage.missing archive).length - 1,
      List.mem_range.mpr (by omega), List.any_eq_true.mpr ⟨archive.totalBlocks + row, ?_, ?_⟩⟩
    · exact (damage.mem_missing archive _).mpr (.inr ⟨row, lost, rfl⟩)
    · rw [damage.coefficientOf_native archive backend nonempty lossy used]
      rfl

/-! ## The right-hand side -/

include nonempty in
/-- The known inputs are those with an intact DATA packet. -/
theorem knownInputIndices_eq :
    (damage.state archive).knownInputIndices (damage.available archive) (damage.missing archive) =
      damage.survivors archive := by
  have inputs : (damage.state archive).totalInputBlocks = archive.totalBlocks :=
    inputCount_eq archive nonempty
  rw [RepairState.knownInputIndices, inputs, Int.toNat_natCast, survivors]
  refine List.filter_congr fun index member => ?_
  have inside := List.mem_range.mp member
  have listed : index ∈ damage.missing archive ↔ (damage.data index).survives = false := by
    rw [mem_missing, mem_lostInputs]
    constructor
    · rintro (⟨_, lost⟩ | ⟨row, _, same⟩)
      · exact lost
      · omega
    · exact fun lost => .inl ⟨inside, lost⟩
  rw [available_eq, if_pos inside, inputEntry]
  cases survives : (damage.data index).survives with
  | true =>
    have absent : index ∉ damage.missing archive := by
      rw [listed, survives]
      decide
    simp [absent]
  | false => simp

theorem survivors_available {index : ℕ} (member : index ∈ damage.survivors archive) :
    (damage.available archive index).getD [] = damage.readBlock archive index := by
  obtain ⟨inside, survives⟩ := List.mem_filter.mp member
  rw [available_eq, if_pos (List.mem_range.mp inside), inputEntry, if_pos survives]
  rfl

include lossy enough in
theorem exists_surviving : ∃ row < archive.recoveryPackets, (damage.recovery row).survives = true := by
  unfold equations at enough
  obtain ⟨rec, member⟩ := List.exists_mem_of_length_pos (show 0 < (damage.recoveryData archive).length
    by omega)
  obtain ⟨row, inside, found⟩ := List.mem_filterMap.mp member
  refine ⟨row, List.mem_range.mp inside, ?_⟩
  by_contra lost
  rw [if_neg lost] at found
  cases found

include lossy enough in
/-- A RECOVERY packet follows every DATA packet, so no window is cut off. -/
theorem readBlock_length (index : ℕ) :
    (damage.readBlock archive index).length = archive.blockSize := by
  obtain ⟨row, inside, survives⟩ := damage.exists_surviving archive lossy enough
  have member : archive.recoveryPacket blake3 row ∈
      damage.recoveryPackets archive 0 archive.recoveryPackets := by
    rw [recoveryPackets, ← List.range_eq_range']
    refine List.mem_filterMap.mpr ⟨row, List.mem_range.mpr inside, ?_⟩
    cases fate : damage.recovery row with
    | intact => rfl
    | lost => simp [fate, Fate.survives] at survives
    | damaged replacement => simp [fate, Fate.survives] at survives
  have long : archive.blockSize ≤ (damage.following archive index).length := by
    obtain ⟨before, after, split⟩ := List.append_of_mem member
    have bytes := RawPacket.bytes_length (archive.packet_wellFormed blake3 .RECOVERY _
      (archive.recoveryBody_small row))
    have body := archive.recoveryBody_length row
    change (archive.recoveryPacket blake3 row).bytes.length = 48 + (archive.recoveryBody row).length
      at bytes
    rw [following, split]
    simp only [packetBytes_append, packetBytes_cons, List.length_append]
    omega
  rw [readBlock, List.length_take, List.length_append]
  omega

/-- The recovery block that is recorded under an index. -/
theorem recByIdx_eq (index : ℕ) : (damage.state archive).recByIdx index =
    if archive.totalBlocks ≤ index ∧ index < archive.totalBlocks + archive.recoveryPackets then
      damage.recoveryEntry archive (index - archive.totalBlocks)
    else none := by
  have pairs := @List.foldl_map _ _ _ (fun rec : RecoveryData => (rec.first_block, rec.data))
    (fun (map : BlockMap) block => map.set block.1 block.2)
  rw [RepairState.recByIdx, state, ← pairs, recoveryData_entries, foldl_set_range]
  simp only [Option.or_none]

/-- The word of the recovery block that enters an equation: zero without its packet. -/
def recoveryWord (eq w : ℕ) : Gf64 :=
  if (damage.recovery eq).survives then wordAt (archive.recoveryBlock eq) w else 0

/-- The contribution of a list of inputs to an equation. -/
def contribution (inputs : List ℕ) (block : ℕ → Buffer) (eq w : ℕ) : Gf64 :=
  (inputs.map fun index => archive.coefficient eq index * wordAt (block index) w).sum

include nonempty lossy in
/-- A known input enters with the coefficient of the code, whatever builds it. -/
theorem cauchyCoeff_eq (eq index : ℕ) (row : eq < (damage.missing archive).length)
    (rowExact : archive.totalBlocks + eq < 2 ^ 53) (input : index < archive.totalBlocks) :
    cauchyCoeff ((damage.state archive).nativeM backend (damage.missing archive).length)
        archive.totalBlocks 0 archive.totalBlocks index eq =
      some (archive.coefficient eq index) := by
  have entry := damage.coefficientOf_input archive backend nonempty lossy eq index row rowExact input
  cases build : (damage.state archive).nativeM backend (damage.missing archive).length with
  | some matrix =>
    have inputs : (damage.state archive).totalInputBlocks = archive.totalBlocks :=
      inputCount_eq archive nonempty
    rw [build, RepairState.coefficientOf, inputs, Int.toNat_natCast] at entry
    exact entry
  | none =>
    have zero := @gf64OfNat_add_eq_zero index (archive.totalBlocks + eq)
      (by have := archive.totalBlocks_le; omega) (by omega)
    simp only [cauchyCoeff, Archive.coefficient, cauchyCoefficient, Nat.zero_add, zero,
      gf64OfNat_xor]
    by_cases same : index = archive.totalBlocks + eq
    · rw [if_pos same, if_pos same]
    · rw [if_neg same, if_neg same]

include nonempty lossy enough in
theorem rhs_eq (eq w : ℕ) (row : eq < (damage.missing archive).length)
    (word : w < archive.blockSize / 8) :
    (damage.state archive).rhs backend (damage.available archive) (damage.missing archive).length
        (damage.survivors archive) eq w =
      damage.recoveryWord archive eq w +
        contribution archive (damage.survivors archive) (damage.readBlock archive) eq w := by
  have inside := damage.equation_inside archive enough row
  have exact (eq : ℕ) (row : eq < (damage.missing archive).length) :
      double ((archive.totalBlocks : ℤ) + (eq : ℤ)) = (archive.totalBlocks + eq : ℕ) := by
    rw [← Nat.cast_add]
    exact double_natCast _ (archive.exact_total eq (damage.equation_inside archive enough row))
  have lengths (index : ℕ) (data : Buffer) (found : data ∈ (damage.state archive).recByIdx index) :
      data.length = archive.blockSize := by
    rw [recByIdx_eq] at found
    split at found
    · unfold recoveryEntry at found
      split at found
      · obtain rfl := Option.mem_some.mp found
        exact archive.recoveryBlock_length _
      · cases found
    · cases found
  have start : wordAt (((damage.state archive).recByIdx (archive.totalBlocks + eq)).getD
      (List.replicate archive.blockSize 0)) w = damage.recoveryWord archive eq w := by
    rw [recByIdx_eq, if_pos (by omega), Nat.add_sub_cancel_left, recoveryEntry, recoveryWord]
    split
    · rfl
    · exact wordAt_zeros _ _
  have inputs : (damage.state archive).totalInputBlocks = archive.totalBlocks :=
    inputCount_eq archive nonempty
  rw [← start, contribution]
  refine ((damage.state archive).rhs_apply backend _ _ _ lengths exact row word).trans
    (congrArg _ (congrArg List.sum (List.map_congr_left fun index member => ?_)))
  have input := List.mem_range.mp (List.mem_filter.mp member).1
  rw [damage.survivors_available archive member, inputs, Int.toNat_natCast]
  refine (congrArg (_ * Option.getD · 0) (damage.cauchyCoeff_eq archive backend nonempty lossy eq index
    row (archive.exact_total eq inside) input)).trans ?_
  exact mul_comm _ _

/-- What the right-hand side holds beyond the contribution of the lost inputs. -/
def error (eq w : ℕ) : Gf64 :=
  (if (damage.recovery eq).survives then 0 else wordAt (archive.recoveryBlock eq) w) +
    (contribution archive (damage.survivors archive) (damage.readBlock archive) eq w +
      contribution archive (damage.survivors archive) archive.inputBlock eq w)

/-- A recovery block is the contribution of the lost and of the surviving inputs. -/
theorem recoveryBlock_word (eq w : ℕ) (word : w < archive.blockSize / 8) :
    wordAt (archive.recoveryBlock eq) w =
      contribution archive (damage.lostInputs archive) archive.inputBlock eq w +
        contribution archive (damage.survivors archive) archive.inputBlock eq w := by
  have split := List.sum_map_filter_add_sum_map_filter_not
    (fun index => (damage.data index).survives = true)
    (fun index => archive.coefficient eq index * wordAt (archive.inputBlock index) w)
    (List.range archive.totalBlocks)
  have lost : damage.lostInputs archive = (List.range archive.totalBlocks).filter
      fun index => decide (¬ (damage.data index).survives = true) := by
    refine List.filter_congr fun index _ => ?_
    cases (damage.data index).survives <;> rfl
  have kept : damage.survivors archive = (List.range archive.totalBlocks).filter
      fun index => decide ((damage.data index).survives = true) := by
    refine List.filter_congr fun index _ => ?_
    cases (damage.data index).survives <;> rfl
  rw [Archive.recoveryBlock, wordAt_ofWords _ _ _ word, contribution, contribution, lost, kept,
    add_comm, split]
  rfl

theorem rhs_error (eq w : ℕ) (word : w < archive.blockSize / 8) :
    damage.recoveryWord archive eq w +
        contribution archive (damage.survivors archive) (damage.readBlock archive) eq w =
      contribution archive (damage.lostInputs archive) archive.inputBlock eq w +
        damage.error archive eq w := by
  have cancel := CharTwo.add_self_eq_zero
    (contribution archive (damage.survivors archive) archive.inputBlock eq w)
  rw [recoveryWord, error, damage.recoveryBlock_word archive eq w word]
  split
  · ring
  · have twice := CharTwo.add_self_eq_zero
      (contribution archive (damage.lostInputs archive) archive.inputBlock eq w)
    linear_combination -twice - cancel

/-! ## The solution -/

/-- The coefficients of the system: one column for each missing block. -/
def systemMatrix :
    Matrix (Fin (damage.missing archive).length) (Fin (damage.missing archive).length) Gf64 :=
  fun eq col => archive.coefficient eq ((damage.missing archive).get col)

/-- The right-hand side that is solved for. -/
def systemRhs : Fin (damage.missing archive).length → Words := fun eq =>
  (damage.state archive).rhs backend (damage.available archive) (damage.missing archive).length
    (damage.survivors archive) eq

include nonempty lossy enough in
/-- The reconstruction of a damaged archive: a failing matrix, a singular system, or the
solution of the system. -/
theorem reconstruct_file :
    reconstruct backend (damage.state archive) (damage.available archive) (damage.missing archive) =
      if damage.nativeUsed archive backend = true ∧ damage.lostRecovery archive ≠ [] then
        .error .repairFailed
      else
        match SolveAndReconstruct (damage.systemMatrix archive) (damage.systemRhs archive backend) with
        | none => .error .singular
        | some solution => .ok ((damage.state archive).writeBlocks backend
            (damage.available archive) (damage.missing archive) solution) := by
  by_cases failing : damage.nativeUsed archive backend = true ∧ damage.lostRecovery archive ≠ []
  · rw [if_pos failing, reconstruct]
    simp only [(damage.entries_isNone archive backend nonempty lossy enough).mpr failing, if_true]
  · rw [if_neg failing]
    have entries (eq : ℕ) (row : eq < (damage.missing archive).length) (index : ℕ)
        (member : index ∈ damage.missing archive) : (damage.state archive).coefficientOf
          ((damage.state archive).nativeM backend (damage.missing archive).length) eq index =
        some (archive.coefficient eq index) := by
      have rowExact := archive.exact_total eq (damage.equation_inside archive enough row)
      by_cases used : damage.nativeUsed archive backend = true
      · have input : index < archive.totalBlocks := by
          have complete : damage.lostRecovery archive = [] := by
            by_contra some
            exact failing ⟨used, some⟩
          rcases (damage.mem_missing archive _).mp member with lost | ⟨_, lost, _⟩
          · exact ((damage.mem_lostInputs archive _).mp lost).1
          · rw [complete] at lost
            cases lost
        exact damage.coefficientOf_input archive backend nonempty lossy eq _ row rowExact input
      · exact damage.coefficientOf_fallback archive backend nonempty lossy
          (Bool.eq_false_iff.mpr used) eq _ rowExact (damage.missing_exact archive member)
    rw [(damage.state archive).reconstruct_eq backend _ _ archive.coefficient entries
      archive.blockSize_pos archive.blockSize_words, damage.knownInputIndices_eq archive nonempty]
    · change (SolveAndReconstruct (damage.systemMatrix archive) (damage.systemRhs archive backend)).elim
        _ _ = _
      cases SolveAndReconstruct (damage.systemMatrix archive) (damage.systemRhs archive backend) with
      | none => rfl
      | some solution => rfl
    · intro index member
      rw [damage.knownInputIndices_eq archive nonempty] at member
      rw [damage.survivors_available archive member,
        damage.readBlock_length archive lossy enough index]
      exact le_rfl

/-- The value of a missing block in a word of the solution. -/
def solvedWord (solution : Fin (damage.missing archive).length → Words) (index w : ℕ) : Gf64 :=
  if inside : (damage.missing archive).idxOf index < (damage.missing archive).length then
    solution ⟨(damage.missing archive).idxOf index, inside⟩ w
  else 0

theorem solvedWord_get (solution : Fin (damage.missing archive).length → Words)
    (col : Fin (damage.missing archive).length) (w : ℕ) :
    damage.solvedWord archive solution ((damage.missing archive).get col) w = solution col w := by
  have position : (damage.missing archive).idxOf ((damage.missing archive).get col) = col :=
    List.get_idxOf (damage.missing_nodup archive) col
  rw [solvedWord, dif_pos (by rw [position]; exact col.isLt)]
  congr 1
  exact Fin.ext position

/-- Every reconstructed block file holds the solved words of its index. -/
theorem mem_blockFiles (solution : Fin (damage.missing archive).length → Words) (index : ℕ)
    (block : Buffer) :
    (index, block) ∈ ((damage.state archive).writeBlocks backend (damage.available archive)
        (damage.missing archive) solution).blockFiles ↔
      index ∈ damage.missing archive ∧
        block = ofWords (archive.blockSize / 8) (damage.solvedWord archive solution index) := by
  have words (col : Fin (damage.missing archive).length) :
      damage.solvedWord archive solution ((damage.missing archive).get col) = solution col :=
    funext fun w => damage.solvedWord_get archive solution col w
  constructor
  · intro member
    obtain ⟨col, _, file⟩ := List.mem_map.mp member
    obtain ⟨rfl, rfl⟩ := Prod.mk.inj file
    refine ⟨List.get_mem _ col, ?_⟩
    rw [words]
    rfl
  · rintro ⟨member, rfl⟩
    obtain ⟨col, rfl⟩ := List.get_of_mem member
    refine List.mem_map.mpr ⟨col, List.mem_finRange col, Prod.ext rfl ?_⟩
    rw [words]
    rfl

/-- Candidates for the lost inputs that explain the error, together with some value for each
lost recovery block. -/
def explains (candidate : ℕ → Buffer) : Prop :=
  ∀ w < archive.blockSize / 8, ∃ filler : ℕ → Gf64, ∀ eq < (damage.missing archive).length,
    contribution archive (damage.lostInputs archive) candidate eq w +
        ((damage.lostRecovery archive).map fun row =>
          archive.coefficient eq (archive.totalBlocks + row) * filler row).sum =
      contribution archive (damage.lostInputs archive) archive.inputBlock eq w +
        damage.error archive eq w

/-- The equations of one word, over the missing list. -/
theorem systemMatrix_sum (x : ℕ → Gf64) (eq : Fin (damage.missing archive).length) :
    ∑ col, damage.systemMatrix archive eq col * x ((damage.missing archive).get col) =
      ((damage.lostInputs archive).map fun index => archive.coefficient eq index * x index).sum +
        ((damage.lostRecovery archive).map fun row =>
          archive.coefficient eq (archive.totalBlocks + row) *
            x (archive.totalBlocks + row)).sum := by
  have whole := Fin.sum_univ_fun_getElem (damage.missing archive)
    fun index => archive.coefficient eq index * x index
  have parts (row : ℕ) : ((damage.missing archive).map fun index =>
      archive.coefficient row index * x index).sum =
      ((damage.lostInputs archive).map fun index => archive.coefficient row index * x index).sum +
        ((damage.lostRecovery archive).map fun lost =>
          archive.coefficient row (archive.totalBlocks + lost) *
            x (archive.totalBlocks + lost)).sum := by
    rw [missing, List.map_append, List.sum_append, List.map_map]
    rfl
  exact whole.trans (parts eq)

include nonempty lossy enough in
/-- The solved words are the only ones that explain the error. -/
theorem solved_iff {solution : Fin (damage.missing archive).length → Words}
    (solved : SolveAndReconstruct (damage.systemMatrix archive) (damage.systemRhs archive backend) =
      some solution) (w : ℕ) (word : w < archive.blockSize / 8) (x : ℕ → Gf64) :
    (∀ eq < (damage.missing archive).length,
        ((damage.lostInputs archive).map fun index => archive.coefficient eq index * x index).sum +
          ((damage.lostRecovery archive).map fun row =>
            archive.coefficient eq (archive.totalBlocks + row) *
              x (archive.totalBlocks + row)).sum =
        contribution archive (damage.lostInputs archive) archive.inputBlock eq w +
          damage.error archive eq w) ↔
      ∀ index ∈ damage.missing archive, x index = damage.solvedWord archive solution index w := by
  have unique := SolveAndReconstruct_word solved w fun col => x ((damage.missing archive).get col)
  have rhs (eq : Fin (damage.missing archive).length) : damage.systemRhs archive backend eq w =
      contribution archive (damage.lostInputs archive) archive.inputBlock eq w +
        damage.error archive eq w := by
    rw [systemRhs, damage.rhs_eq archive backend nonempty lossy enough eq w eq.isLt word,
      damage.rhs_error archive eq w word]
  simp only [systemMatrix_sum, rhs] at unique
  constructor
  · intro equations index member
    obtain ⟨col, rfl⟩ := List.get_of_mem member
    rw [solvedWord_get]
    exact unique.mp (fun eq => equations eq eq.isLt) col
  · intro same eq row
    refine unique.mpr (fun col => ?_) ⟨eq, row⟩
    rw [← damage.solvedWord_get archive solution col w]
    exact same _ (List.get_mem _ col)

include nonempty lossy enough in
/-- Repair writes lost blocks with a property exactly when its matrix can be read, its system
is nonsingular, and some blocks with the property explain the error. -/
theorem reconstruct_iff (holds : ℕ → Buffer → Prop) :
    (∃ result, reconstruct backend (damage.state archive) (damage.available archive)
        (damage.missing archive) = .ok result ∧
      ∀ index ∈ damage.lostInputs archive, ∃ block,
        (index, block) ∈ result.blockFiles ∧ holds index block) ↔
    (damage.nativeUsed archive backend = true → damage.lostRecovery archive = []) ∧
      (damage.systemMatrix archive).det ≠ 0 ∧
      ∃ candidate : ℕ → Buffer,
        (∀ index ∈ damage.lostInputs archive,
          (candidate index).length = archive.blockSize ∧ holds index (candidate index)) ∧
        damage.explains archive candidate := by
  have spec := SolveAndReconstruct_spec (damage.systemMatrix archive)
    (damage.systemRhs archive backend)
  have listed {index : ℕ} (lost : index ∈ damage.lostInputs archive) :
      index ∈ damage.missing archive := (damage.mem_missing archive index).mpr (.inl lost)
  rw [damage.reconstruct_file archive backend nonempty lossy enough]
  by_cases entries : damage.nativeUsed archive backend = true ∧ damage.lostRecovery archive ≠ []
  · rw [if_pos entries]
    constructor
    · rintro ⟨result, failed, _⟩
      cases failed
    · rintro ⟨complete, _⟩
      exact absurd (complete entries.1) entries.2
  rw [if_neg entries]
  have readable : damage.nativeUsed archive backend = true → damage.lostRecovery archive = [] := by
    intro used
    by_contra some
    exact entries ⟨used, some⟩
  cases solved : SolveAndReconstruct (damage.systemMatrix archive)
      (damage.systemRhs archive backend) with
  | none =>
    rw [solved] at spec
    constructor
    · rintro ⟨result, failed, _⟩
      cases failed
    · rintro ⟨_, nonsingular, _⟩
      exact absurd spec nonsingular
  | some solution =>
    rw [solved] at spec
    have unique := damage.solved_iff archive backend nonempty lossy enough solved
    constructor
    · rintro ⟨result, success, restored⟩
      obtain rfl := Except.ok.inj success
      refine ⟨readable, spec.1, fun index => ofWords (archive.blockSize / 8)
        (damage.solvedWord archive solution index), fun index lost => ⟨?_, ?_⟩, ?_⟩
      · rw [ofWords_length, archive.blockSize_eq]
      · obtain ⟨block, file, property⟩ := restored index lost
        have written := ((damage.mem_blockFiles archive backend solution index block).mp file).2
        rwa [written] at property
      · intro w word
        refine ⟨fun row => damage.solvedWord archive solution (archive.totalBlocks + row) w,
          fun eq row => ?_⟩
        have equation := (unique w word fun index => damage.solvedWord archive solution index w).mpr
          (fun _ _ => rfl) eq row
        simp only [contribution, wordAt_ofWords _ _ _ word] at equation ⊢
        exact equation
    · rintro ⟨_, _, candidate, property, explained⟩
      refine ⟨_, rfl, fun index lost => ⟨candidate index, ?_, (property index lost).2⟩⟩
      refine (damage.mem_blockFiles archive backend solution index _).mpr ⟨listed lost, ?_⟩
      rw [← ofWords_wordAt (archive.blockSize / 8) (candidate index)
        ((property index lost).1.trans archive.blockSize_eq.symm)]
      refine ofWords_congr _ fun w word => ?_
      obtain ⟨filler, equations⟩ := explained w word
      have inside := ((damage.mem_lostInputs archive index).mp lost).1
      -- The candidates and the filler together solve the system of this word.
      have same := (unique w word fun index =>
        if index < archive.totalBlocks then wordAt (candidate index) w
        else filler (index - archive.totalBlocks)).mp (fun eq row => ?_) index (listed lost)
      · rwa [if_pos inside] at same
      · rw [← equations eq row, contribution]
        congr 1
        · refine congrArg List.sum (List.map_congr_left fun other member => ?_)
          rw [if_pos ((damage.mem_lostInputs archive other).mp member).1]
        · refine congrArg List.sum (List.map_congr_left fun other _ => ?_)
          rw [if_neg (by omega), Nat.add_sub_cancel_left]

end Reconstruction

end Damage

end Par3
