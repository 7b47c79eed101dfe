import Par3.DamagedSystem
import Par3.Foundations.CauchyMatrix

/-!
# Loss patterns and the systems they lead to

A loss pattern picks missing inputs and as many recovery rows, from index ranges that have no
64-bit word in common. Its system has the inverse of the sum of an input word and a recovery
word for an entry, is never singular, and each of the solvers returns the lost words from it.

Repair computes the entries from indices that it has added as doubles, or passed on as signed
64-bit numbers. An archive that has lost inputs only is followed through the passes to the matrix
and the right-hand sides that repair makes. They are those of the code, and the lost words come
back, exactly when no missing input has an index that is rounded on its way into the matrix.
-/

namespace Par3

/-! ## The pattern -/

/-- Missing inputs and the recovery rows that are to replace them. -/
structure LossPattern (n : ℕ) where
  numInputs : ℕ
  numRecovery : ℕ
  firstInput : ℕ
  firstRecovery : ℕ
  missing : Fin n → ℕ
  rows : Fin n → ℕ
  missing_inside : ∀ col, missing col < numInputs
  rows_inside : ∀ eq, rows eq < numRecovery
  missing_distinct : Function.Injective missing
  rows_distinct : Function.Injective rows
  disjoint : ∀ input < numInputs, ∀ row < numRecovery,
    gf64OfNat (firstInput + input) ≠ gf64OfNat (firstRecovery + row)

theorem gf64OfNat_eq_iff (left right : ℕ) :
    gf64OfNat left = gf64OfNat right ↔ left % 2 ^ 64 = right % 2 ^ 64 := by
  constructor
  · intro same
    have bits := congrArg (fun word : Gf64 => word.bits.toNat) same
    simpa [gf64OfNat] using bits
  · intro same
    exact BinaryField.Word.ext (BitVec.eq_of_toNat_eq (by simpa [gf64OfNat] using same))

/-- A range with a word that another range lacks is shorter than all words. -/
theorem range_lt {first count other : ℕ}
    (apart : ∀ index < count, gf64OfNat (first + index) ≠ gf64OfNat other) : count < 2 ^ 64 := by
  by_contra long
  refine apart ((other + (2 ^ 64 - first % 2 ^ 64)) % 2 ^ 64) (by omega) ?_
  rw [gf64OfNat_eq_iff]
  omega

/-- Indices of a short range are different words. -/
theorem gf64OfNat_add_injective {first left right : ℕ} (leftFits : left < 2 ^ 64)
    (rightFits : right < 2 ^ 64) (same : gf64OfNat (first + left) = gf64OfNat (first + right)) :
    left = right := by
  rw [gf64OfNat_eq_iff] at same
  omega

namespace LossPattern

variable {n : ℕ} (pattern : LossPattern n)

/-- The word of a missing input. -/
def inputPoint (col : Fin n) : Gf64 := gf64OfNat (pattern.firstInput + pattern.missing col)

/-- The word of a chosen recovery row. -/
def recoveryPoint (eq : Fin n) : Gf64 := gf64OfNat (pattern.firstRecovery + pattern.rows eq)

/-- The system of the code: every entry is the inverse of a sum of two words. -/
def system : Matrix (Fin n) (Fin n) Gf64 :=
  fun eq col => (pattern.inputPoint col + pattern.recoveryPoint eq)⁻¹

/-- No system of a loss pattern is singular. -/
theorem system_det_ne_zero : pattern.system.det ≠ 0 := by
  have cauchy : pattern.system =
      CauchyMatrix.cauchy pattern.recoveryPoint pattern.inputPoint := by
    funext eq col
    rw [system, CauchyMatrix.cauchy, CharTwo.sub_eq_add, add_comm]
  rw [cauchy]
  apply CauchyMatrix.cauchy_det_ne_zero
  · intro first second same
    have short := @range_lt pattern.firstRecovery pattern.numRecovery
      (pattern.firstInput + pattern.missing first) fun row inside equal =>
        pattern.disjoint _ (pattern.missing_inside first) row inside equal.symm
    have firstInside := pattern.rows_inside first
    have secondInside := pattern.rows_inside second
    apply pattern.rows_distinct
    exact gf64OfNat_add_injective (by omega) (by omega) same
  · intro first second same
    have short := @range_lt pattern.firstInput pattern.numInputs
      (pattern.firstRecovery + pattern.rows first) fun input inside =>
        pattern.disjoint input inside _ (pattern.rows_inside first)
    have firstInside := pattern.missing_inside first
    have secondInside := pattern.missing_inside second
    apply pattern.missing_distinct
    exact gf64OfNat_add_injective (by omega) (by omega) same
  · intro eq col same
    exact pattern.disjoint _ (pattern.missing_inside col) _ (pattern.rows_inside eq) same.symm

/-- A nonsingular system is solved by the words it was made from. -/
theorem solve_system {V : Type*} [AddCommGroup V] [Module Gf64 V] (words : Fin n → V) :
    Elimination.solve pattern.system (fun eq => ∑ col, pattern.system eq col • words col) =
      some words := by
  have spec := Elimination.solve_spec pattern.system
    (fun eq => ∑ col, pattern.system eq col • words col)
  cases solved : Elimination.solve pattern.system
      (fun eq => ∑ col, pattern.system eq col • words col) with
  | none =>
    rw [solved] at spec
    exact absurd spec pattern.system_det_ne_zero
  | some solution =>
    rw [solved] at spec
    rw [(spec.2 words).mp fun _ => rfl]

/-- No solver reports a singular system, and each returns the words that the right-hand sides
were made from. -/
structure Solved : Prop where
  nonsingular : pattern.system.det ≠ 0
  blocks : ∀ blocks : Fin n → Words, SolveAndReconstruct pattern.system
    (fun eq => ∑ col, pattern.system eq col • blocks col) = some blocks
  eachWord : ∀ words : Fin n → Gf64, gf64_solve pattern.system
    (fun eq => ∑ col, pattern.system eq col * words col) = some words
  eachJsWord : ∀ words : Fin n → Gf64, gf64_js_solve pattern.system
    (fun eq => ∑ col, pattern.system eq col * words col) = some words

theorem solved : pattern.Solved where
  nonsingular := pattern.system_det_ne_zero
  blocks blocks := by
    rw [SolveAndReconstruct_eq]
    exact pattern.solve_system blocks
  eachWord words := by
    rw [gf64_solve_eq]
    exact pattern.solve_system words
  eachJsWord words := by
    rw [gf64_js_solve_eq]
    exact pattern.solve_system words

end LossPattern

/-! ## Rounded indices -/

/-- What is rounded to an exact number is exact. -/
theorem lt_of_roundDouble_lt {value : ℕ} (small : roundDouble value < 2 ^ 53) : value < 2 ^ 53 := by
  by_contra large
  have bits : 53 ≤ value.log2 := (Nat.le_log2 (by omega)).mpr (by omega)
  have leading : 2 ^ 52 ≤ value / 2 ^ (value.log2 - 52) := by
    rw [Nat.le_div_iff_mul_le (Nat.two_pow_pos _), ← Nat.pow_add,
      show 52 + (value.log2 - 52) = value.log2 by omega]
    exact Nat.log2_self_le (by omega)
  have unit : 2 ^ 1 ≤ 2 ^ (value.log2 - 52) := Nat.pow_le_pow_right (by omega) (by omega)
  have kept : value / 2 ^ (value.log2 - 52) * 2 ^ (value.log2 - 52) ≤ roundDouble value := by
    simp only [roundDouble]
    split
    · exact Nat.mul_le_mul_right _ (Nat.le_succ _)
    · exact le_rfl
  have product := Nat.mul_le_mul leading unit
  omega

/-- Setting other entries leaves an entry as it is. -/
theorem foldl_set_absent (blocks : List (ℕ × Buffer)) (index : ℕ)
    (absent : ∀ block ∈ blocks, block.1 ≠ index) (map : BlockMap) :
    blocks.foldl (fun (map : BlockMap) block => map.set block.1 block.2) map index = map index := by
  induction blocks generalizing map with
  | nil => rfl
  | cons block later ih =>
    rw [List.foldl_cons, ih fun other member => absent other (by simp [member])]
    exact if_neg (absent block (by simp)).symm

/-! ## What repair reads -/

/-- An archive that has lost inputs, as both passes read it: the numbers of its parameter packets,
and which DATA packets are gone. The RECOVERY packets are all there. -/
structure InputLoss where
  startPacket : StartPacket
  matrix : MatrixPacket
  numInputs : ℕ
  numRecovery : ℕ
  lost : ℕ → Bool
  blockSize_pos : 0 < startPacket.block_size
  blockSize_words : 8 ∣ startPacket.block_size
  counted : matrix.inputCount = numInputs
  small : numInputs + numRecovery < 2 ^ 53
  first_input_number : roundDouble matrix.first_input = matrix.first_input
  first_recovery_number : roundDouble matrix.first_recovery = matrix.first_recovery
  inside : matrix.first_input + numInputs ≤ 2 ^ 64
  disjoint : ∀ input < numInputs, ∀ row < numRecovery,
    gf64OfNat (matrix.first_input + input) ≠ gf64OfNat (matrix.first_recovery + row)
  some_lost : ∃ index < numInputs, lost index
  enough : ((List.range numInputs).filter lost).length ≤ numRecovery

namespace InputLoss

variable (loss : InputLoss)

def blockSize : ℕ := loss.startPacket.block_size

/-- The missing inputs. -/
def missing : List ℕ := (List.range loss.numInputs).filter loss.lost

def known : List ℕ := (List.range loss.numInputs).filter fun index => !loss.lost index

/-- The coefficient of an input in a recovery block, from the exact indices. -/
def coefficient (row index : ℕ) : Gf64 :=
  cauchyCoefficient loss.matrix.first_input loss.matrix.first_recovery row index

variable (words : ℕ → Words)

/-- The words of a recovery block: the sum over all inputs. -/
def recoveryWord (row w : ℕ) : Gf64 :=
  ∑ index ∈ Finset.range loss.numInputs, loss.coefficient row index * words index w

/-- What repair knows after both passes, for inputs of given words. -/
def state : RepairState where
  startPacket := loss.startPacket
  matrix := loss.matrix
  totalInputBlocks := loss.matrix.inputCount
  totalRecoveryBlocks := loss.numRecovery
  dataBlocks := loss.known.map fun index => ⟨index, ofWords (loss.blockSize / 8) (words index)⟩
  recoveryData := (List.range loss.numRecovery).map fun row =>
    ⟨roundDouble (loss.matrix.first_recovery + row), 1,
      ofWords (loss.blockSize / 8) (loss.recoveryWord words row)⟩

/-- The map of repair. -/
def available : BlockMap :=
  buildAvailableMap loss.blockSize (loss.state words).dataBlocks (loss.state words).recoveryData

/-- Repair misses the lost inputs and nothing else. -/
def finds : Prop := ∀ words : ℕ → Words,
  missingBlocks (loss.available words) (double ((loss.state words).totalInputBlocks +
    (loss.state words).totalRecoveryBlocks)).toNat = loss.missing

variable (backend : Backend)

/-- The matrix that repair gives to the solvers. -/
def repairMatrix : Matrix (Fin loss.missing.length) (Fin loss.missing.length) Gf64 := fun eq col =>
  ((loss.state words).coefficientOf ((loss.state words).nativeM backend loss.missing.length) eq
    (loss.missing.get col)).getD 0

/-- The right-hand sides that repair gives to the solvers. -/
def repairRhs : Fin loss.missing.length → Words := fun eq =>
  (loss.state words).rhs backend (loss.available words) loss.missing.length
    ((loss.state words).knownInputIndices (loss.available words) loss.missing) eq

/-- Whatever the words of the inputs, no solver reports a singular system, each returns the lost
words from repair's own matrix and right-hand sides, and repair writes the lost blocks. -/
structure Returns : Prop where
  nonsingular : (loss.repairMatrix words backend).det ≠ 0
  blocks : ∃ solution, SolveAndReconstruct (loss.repairMatrix words backend)
      (loss.repairRhs words backend) = some solution ∧
    ∀ col, ∀ w < loss.blockSize / 8, solution col w = words (loss.missing.get col) w
  eachWord : ∀ w < loss.blockSize / 8, gf64_solve (loss.repairMatrix words backend)
    (fun eq => loss.repairRhs words backend eq w) = some fun col => words (loss.missing.get col) w
  eachJsWord : ∀ w < loss.blockSize / 8, gf64_js_solve (loss.repairMatrix words backend)
    (fun eq => loss.repairRhs words backend eq w) = some fun col => words (loss.missing.get col) w
  written : ∃ result, reconstruct backend (loss.state words) (loss.available words) loss.missing =
      .ok result ∧
    ∀ index ∈ loss.missing, (index, ofWords (loss.blockSize / 8) (words index)) ∈ result.blockFiles

/-- Whether repair takes the entries from the native matrix. -/
def nativeUsed : Bool :=
  backend.native && backend.nativeMatrix &&
    repairNativeMatrixAllowed loss.matrix.inputCount loss.missing.length loss.matrix.first_input
      loss.matrix.first_recovery REPAIR_COEFF_MATRIX_MAX_ENTRIES

/-- An index enters the matrix as it is: the first input is a signed 64-bit number where the
binding builds the matrix, and elsewhere the sum is a double. -/
def kept (index : ℕ) : Prop :=
  if loss.nativeUsed backend then loss.matrix.first_input < 2 ^ 63
  else roundDouble (loss.matrix.first_input + index) = loss.matrix.first_input + index

/-- Every missing input enters the matrix with its own index. -/
def indicesKept : Prop := ∀ index ∈ loss.missing, loss.kept backend index

theorem mem_missing (index : ℕ) :
    index ∈ loss.missing ↔ index < loss.numInputs ∧ loss.lost index = true := by
  simp [missing]

theorem mem_known (index : ℕ) :
    index ∈ loss.known ↔ index < loss.numInputs ∧ loss.lost index = false := by
  simp [known]

theorem missing_get_lt (col : Fin loss.missing.length) : loss.missing.get col < loss.numInputs :=
  ((loss.mem_missing _).mp (List.get_mem _ col)).1

theorem missing_injective : Function.Injective loss.missing.get :=
  List.nodup_iff_injective_get.mp (List.nodup_range.filter _)

theorem missing_pos : 0 < loss.missing.length := by
  obtain ⟨index, inside, lost⟩ := loss.some_lost
  exact List.length_pos_of_mem ((loss.mem_missing index).mpr ⟨inside, lost⟩)

theorem blockSize_eq : 8 * (loss.blockSize / 8) = loss.blockSize :=
  Nat.mul_div_cancel' loss.blockSize_words

theorem total_eq : double ((loss.state words).totalInputBlocks +
    (loss.state words).totalRecoveryBlocks) = (loss.numInputs + loss.numRecovery : ℕ) := by
  have sum : (loss.state words).totalInputBlocks + (loss.state words).totalRecoveryBlocks =
      (loss.numInputs + loss.numRecovery : ℕ) := by
    rw [Nat.cast_add, ← loss.counted]
    rfl
  rw [sum, double_natCast _ loss.small]

/-! ## The missing list -/

/-- The map is built from the DATA packets first. -/
theorem available_eq : loss.available words =
    ((List.range loss.numRecovery).map fun row =>
      (roundDouble (loss.matrix.first_recovery + row),
        ofWords (loss.blockSize / 8) (loss.recoveryWord words row))).foldl
      (fun (map : BlockMap) block => map.set block.1 block.2)
      fun index => if index ∈ loss.known then some (ofWords (loss.blockSize / 8) (words index))
        else none := by
  have single (map : BlockMap) (rec : RecoveryData) (member : rec ∈ (loss.state words).recoveryData) :
      (List.range rec.block_count).foldl
        (fun map bi => map.set (double (rec.first_block + (bi : ℕ))).toNat
          (slice rec.data (bi * loss.blockSize) ((bi + 1) * loss.blockSize))) map =
        map.set rec.first_block rec.data := by
    obtain ⟨row, _, rfl⟩ := List.mem_map.mp member
    have whole : slice (ofWords (loss.blockSize / 8) (loss.recoveryWord words row)) 0 loss.blockSize =
        ofWords (loss.blockSize / 8) (loss.recoveryWord words row) := by
      rw [slice, List.drop_zero, Nat.sub_zero]
      exact List.take_of_length_le (by rw [ofWords_length, loss.blockSize_eq])
    simp only [List.range_one, List.foldl_cons, List.foldl_nil, Nat.cast_zero, add_zero,
      double_natCast_eq, roundDouble_roundDouble, Int.toNat_natCast, Nat.zero_mul, Nat.zero_add,
      Nat.one_mul, whole]
  have data : (loss.state words).dataBlocks.foldl
      (fun (map : BlockMap) block => map.set block.block_index block.data) (fun _ => none) =
      fun index => if index ∈ loss.known then some (ofWords (loss.blockSize / 8) (words index))
        else none := by
    funext index
    have entries : loss.known.map (fun index => (index, ofWords (loss.blockSize / 8) (words index))) =
        (List.range loss.numInputs).filterMap fun i =>
          (if loss.lost i then none else some (ofWords (loss.blockSize / 8) (words i))).map
            (Prod.mk (0 + i)) := by
      rw [known, ← List.filterMap_eq_map, List.filterMap_filter]
      refine List.filterMap_congr fun i _ => ?_
      cases loss.lost i <;> simp
    have pairs := @List.foldl_map _ _ _ (fun index =>
      (index, ofWords (loss.blockSize / 8) (words index)))
      (fun (map : BlockMap) block => map.set block.1 block.2) loss.known fun _ => none
    rw [state, List.foldl_map, ← pairs, entries, foldl_set_range]
    simp only [mem_known, Nat.zero_le, true_and, Nat.zero_add, Nat.sub_zero, Option.or_none]
    by_cases inside : index < loss.numInputs
    · cases loss.lost index <;> simp [inside]
    · simp [inside]
  rw [available, buildAvailableMap, List.foldl_ext _ _ _ single, data, state, List.foldl_map,
    List.foldl_map]

section Behind

variable (behind : loss.matrix.first_recovery = loss.numInputs)

include behind in
theorem recovery_entries : ((List.range loss.numRecovery).map fun row =>
    (roundDouble (loss.matrix.first_recovery + row),
      ofWords (loss.blockSize / 8) (loss.recoveryWord words row))) =
    (List.range loss.numRecovery).filterMap fun row =>
      (some (ofWords (loss.blockSize / 8) (loss.recoveryWord words row))).map
        (Prod.mk (loss.numInputs + row)) := by
  have small := loss.small
  rw [← List.filterMap_eq_map]
  refine List.filterMap_congr fun row member => ?_
  have inside := List.mem_range.mp member
  rw [Function.comp_apply, Option.map_some, behind, roundDouble_of_lt _ (by omega)]

include behind in
/-- The map, when recovery blocks are numbered behind the inputs. -/
theorem available_behind (index : ℕ) : loss.available words index =
    if loss.numInputs ≤ index ∧ index < loss.numInputs + loss.numRecovery then
      some (ofWords (loss.blockSize / 8) (loss.recoveryWord words (index - loss.numInputs)))
    else if index ∈ loss.known then some (ofWords (loss.blockSize / 8) (words index))
    else none := by
  rw [available_eq, loss.recovery_entries words behind, foldl_set_range]
  simp only [Option.some_or]

include behind in
/-- The recovery block that is recorded under an index. -/
theorem recByIdx_behind (index : ℕ) : (loss.state words).recByIdx index =
    if loss.numInputs ≤ index ∧ index < loss.numInputs + loss.numRecovery then
      some (ofWords (loss.blockSize / 8) (loss.recoveryWord words (index - loss.numInputs)))
    else none := by
  have pairs := @List.foldl_map _ _ _ (fun rec : RecoveryData => (rec.first_block, rec.data))
    (fun (map : BlockMap) block => map.set block.1 block.2)
  have entries : (loss.state words).recoveryData.map (fun rec => (rec.first_block, rec.data)) =
      (List.range loss.numRecovery).map fun row =>
        (roundDouble (loss.matrix.first_recovery + row),
          ofWords (loss.blockSize / 8) (loss.recoveryWord words row)) := by
    rw [state, List.map_map]
    rfl
  rw [RepairState.recByIdx, ← pairs, entries, loss.recovery_entries words behind, foldl_set_range]
  simp only [Option.some_or]

include behind in
theorem missing_behind :
    missingBlocks (loss.available words) (loss.numInputs + loss.numRecovery) = loss.missing := by
  have inputs : (List.range loss.numInputs).filter
      (fun index => (loss.available words index).isNone) = loss.missing := by
    refine List.filter_congr fun index member => ?_
    have inside := List.mem_range.mp member
    rw [loss.available_behind words behind, if_neg (by omega)]
    cases gone : loss.lost index <;> simp [mem_known, inside, gone]
  have recovery : ((List.range loss.numRecovery).map (loss.numInputs + ·)).filter
      (fun index => (loss.available words index).isNone) = [] := by
    refine List.filter_eq_nil_iff.mpr fun index member => ?_
    obtain ⟨row, inside, rfl⟩ := List.mem_map.mp member
    have inside := List.mem_range.mp inside
    rw [loss.available_behind words behind, if_pos (by omega)]
    simp
  rw [missingBlocks, List.range_add, List.filter_append, inputs, recovery, List.append_nil]

end Behind

/-- Repair misses the lost inputs alone exactly when the recovery indices begin behind them: it
looks for as many recovery blocks there as there are packets. -/
theorem finds_iff : loss.finds ↔ loss.matrix.first_recovery = loss.numInputs := by
  have small := loss.small
  simp only [finds, total_eq, Int.toNat_natCast]
  constructor
  · intro found
    have present {index : ℕ} (behind : loss.numInputs ≤ index)
        (below : index < loss.numInputs + loss.numRecovery) :
        ∃ row < loss.numRecovery, roundDouble (loss.matrix.first_recovery + row) = index := by
      by_contra none
      have absent : index ∈ loss.missing := by
        rw [← found fun _ _ => 0, missingBlocks, List.mem_filter, loss.available_eq,
          foldl_set_absent]
        · have unknown : index ∉ loss.known := fun member =>
            absurd ((loss.mem_known index).mp member).1 (by omega)
          exact ⟨List.mem_range.mpr below, by rw [if_neg unknown]; rfl⟩
        · intro block member same
          obtain ⟨row, row_inside, rfl⟩ := List.mem_map.mp member
          exact none ⟨row, List.mem_range.mp row_inside, same⟩
      exact absurd ((loss.mem_missing index).mp absent).1 (by omega)
    -- So many rows fill so many indices, and each row has one of them.
    have covered : Finset.Ico loss.numInputs (loss.numInputs + loss.numRecovery) =
        (Finset.range loss.numRecovery).image
          fun row => roundDouble (loss.matrix.first_recovery + row) := by
      refine Finset.eq_of_subset_of_card_le (fun index member => ?_)
        (Finset.card_image_le.trans (by simp))
      obtain ⟨behind, below⟩ := Finset.mem_Ico.mp member
      obtain ⟨row, inside, same⟩ := present behind below
      exact Finset.mem_image.mpr ⟨row, Finset.mem_range.mpr inside, same⟩
    have exact {row : ℕ} (inside : row < loss.numRecovery) :
        loss.numInputs ≤ loss.matrix.first_recovery + row := by
      have member : roundDouble (loss.matrix.first_recovery + row) ∈
          Finset.Ico loss.numInputs (loss.numInputs + loss.numRecovery) := by
        rw [covered]
        exact Finset.mem_image.mpr ⟨row, Finset.mem_range.mpr inside, rfl⟩
      obtain ⟨behind, below⟩ := Finset.mem_Ico.mp member
      have fits := lt_of_roundDouble_lt (below.trans small)
      rwa [roundDouble_of_lt _ fits] at behind
    have rows : 0 < loss.numRecovery := loss.missing_pos.trans_le loss.enough
    obtain ⟨row, inside, same⟩ := present le_rfl (by omega)
    have fits := @lt_of_roundDouble_lt (loss.matrix.first_recovery + row) (by omega)
    rw [roundDouble_of_lt _ fits] at same
    have least := exact rows
    omega
  · exact fun behind words => loss.missing_behind words behind

/-! ## The matrix -/

/-- The entry for an input: from the native matrix, or added as doubles. -/
def entry (eq index : ℕ) : Gf64 :=
  if loss.nativeUsed backend then
    cauchyCoefficient (int64Argument loss.matrix.first_input)
      (int64Argument loss.matrix.first_recovery) eq index
  else fallbackCoefficient loss.matrix.first_input loss.matrix.first_recovery eq index

theorem inputs_toNat : (loss.state words).totalInputBlocks.toNat = loss.numInputs := by
  change loss.matrix.inputCount.toNat = loss.numInputs
  rw [loss.counted, Int.toNat_natCast]

theorem nativeM_eq : (loss.state words).nativeM backend loss.missing.length =
    if loss.nativeUsed backend then
      some (readNativeMatrix loss.numInputs loss.missing.length loss.matrix.first_input
        loss.matrix.first_recovery)
    else none := by
  rw [RepairState.nativeM, inputs_toNat]
  rfl

theorem coefficientOf_eq {eq index : ℕ} (row : eq < loss.missing.length)
    (input : index < loss.numInputs) :
    (loss.state words).coefficientOf ((loss.state words).nativeM backend loss.missing.length) eq
      index = some (loss.entry backend eq index) := by
  rw [nativeM_eq, entry]
  split
  · rw [RepairState.coefficientOf, inputs_toNat]
    exact readNativeMatrix_entry _ _ row input
  · rfl

variable {loss backend} in
theorem different {eq index : ℕ} (row : eq < loss.missing.length) (input : index < loss.numInputs) :
    gf64OfNat (loss.matrix.first_input + index) + gf64OfNat (loss.matrix.first_recovery + eq) ≠ 0 := by
  rw [ne_eq, CharTwo.add_eq_zero]
  exact loss.disjoint index input eq (row.trans_le loss.enough)

theorem coefficient_eq {eq index : ℕ} (row : eq < loss.missing.length)
    (input : index < loss.numInputs) : loss.coefficient eq index =
      (gf64OfNat (loss.matrix.first_input + index) +
        gf64OfNat (loss.matrix.first_recovery + eq))⁻¹ := by
  rw [coefficient, cauchyCoefficient, if_neg (different row input)]

section Behind

variable (behind : loss.matrix.first_recovery = loss.numInputs)

include behind in
/-- The native matrix has the entry of the code when the first input is a signed number. -/
theorem native_entry_iff {eq index : ℕ} (row : eq < loss.missing.length)
    (input : index < loss.numInputs) :
    cauchyCoefficient (int64Argument loss.matrix.first_input)
        (int64Argument loss.matrix.first_recovery) eq index = loss.coefficient eq index ↔
      loss.matrix.first_input < 2 ^ 63 := by
  have small := loss.small
  have inside := loss.inside
  have rows := loss.enough
  have recovery : int64Argument loss.matrix.first_recovery = loss.matrix.first_recovery :=
    Nat.min_eq_left (by omega)
  rw [recovery]
  constructor
  · intro same
    by_contra large
    have saturated : int64Argument loss.matrix.first_input = 2 ^ 63 - 1 := Nat.min_eq_right (by omega)
    have nonzero : gf64OfNat (2 ^ 63 - 1 + index) + gf64OfNat (loss.matrix.first_recovery + eq) ≠ 0 := by
      change eq < ((List.range loss.numInputs).filter loss.lost).length at row
      rw [ne_eq, gf64OfNat_add_eq_zero (by omega) (by omega)]
      omega
    rw [coefficient_eq loss row input, cauchyCoefficient, saturated, if_neg nonzero] at same
    have word := gf64OfNat_injective (by omega) (by omega) (add_right_cancel (inv_injective same))
    omega
  · intro signed
    rw [int64Argument, Nat.min_eq_left (by omega), coefficient]

include behind in
/-- The fallback has the entry of the code when the sum of the index is exact. -/
theorem fallback_entry_iff {eq index : ℕ} (row : eq < loss.missing.length)
    (input : index < loss.numInputs) :
    fallbackCoefficient loss.matrix.first_input loss.matrix.first_recovery eq index =
        loss.coefficient eq index ↔
      roundDouble (loss.matrix.first_input + index) = loss.matrix.first_input + index := by
  have small := loss.small
  have inside := loss.inside
  have rows := row.trans_le loss.enough
  have apart := different row input
  have recovery : (double ((loss.matrix.first_recovery : ℤ) + (eq : ℤ))).toNat =
      loss.matrix.first_recovery + eq := by
    rw [← Nat.cast_add, double_natCast _ (by omega), Int.toNat_natCast]
  have sum : (double ((loss.matrix.first_input : ℤ) + (index : ℤ))).toNat =
      roundDouble (loss.matrix.first_input + index) := by
    rw [← Nat.cast_add, double_natCast_eq, Int.toNat_natCast]
  have near := roundDouble_near (loss.matrix.first_input + index) (by omega)
  rw [coefficient_eq loss row input]
  simp only [fallbackCoefficient, recovery, sum]
  constructor
  · intro same
    split at same
    · next rounded =>
      have fits := @lt_of_roundDouble_lt (loss.matrix.first_input + index) (by omega)
      rw [roundDouble_of_lt _ fits] at rounded
      rw [rounded, CharTwo.add_self_eq_zero] at apart
      exact absurd rfl apart
    · rw [gf64OfNat_xor, add_comm] at same
      have word := add_right_cancel (inv_injective same)
      rw [gf64OfNat_eq_iff] at word
      omega
  · intro exact
    have unequal : loss.matrix.first_recovery + eq ≠ loss.matrix.first_input + index := by
      intro same
      rw [same, CharTwo.add_self_eq_zero] at apart
      exact apart rfl
    rw [exact, if_neg unequal, gf64OfNat_xor, add_comm]

include behind in
theorem entry_iff {eq index : ℕ} (row : eq < loss.missing.length) (input : index < loss.numInputs) :
    loss.entry backend eq index = loss.coefficient eq index ↔ loss.kept backend index := by
  rw [entry, kept]
  split
  · exact loss.native_entry_iff behind row input
  · exact loss.fallback_entry_iff behind row input

/-! ## The right-hand sides -/

/-- The coefficient that a known input is subtracted with. -/
def knownEntry (eq index : ℕ) : Gf64 :=
  (cauchyCoeff ((loss.state words).nativeM backend loss.missing.length) loss.numInputs
    loss.matrix.first_input loss.matrix.first_recovery index eq).getD 0

include behind in
/-- Known inputs are added with exact indices, unless they come from the native matrix. -/
theorem knownEntry_eq (kept : loss.indicesKept backend) {eq index : ℕ}
    (row : eq < loss.missing.length) (input : index < loss.numInputs) :
    loss.knownEntry words backend eq index = loss.coefficient eq index := by
  rw [knownEntry, nativeM_eq]
  split
  · next used =>
    have first := kept (loss.missing.get ⟨0, loss.missing_pos⟩) (List.get_mem _ _)
    rw [InputLoss.kept, if_pos used] at first
    rw [cauchyCoeff, readNativeMatrix_entry _ _ row input]
    exact (loss.native_entry_iff behind row input).mpr first
  · have apart := different row input
    have unequal : loss.matrix.first_input + index ≠ loss.matrix.first_recovery + eq := by
      intro same
      rw [same, CharTwo.add_self_eq_zero] at apart
      exact apart rfl
    rw [cauchyCoeff, if_neg unequal, gf64OfNat_xor, coefficient_eq loss row input]
    rfl

include behind in
theorem knownInputIndices_eq :
    (loss.state words).knownInputIndices (loss.available words) loss.missing = loss.known := by
  rw [RepairState.knownInputIndices, inputs_toNat, known]
  refine List.filter_congr fun index member => ?_
  have inside := List.mem_range.mp member
  rw [loss.available_behind words behind, if_neg (by omega)]
  cases gone : loss.lost index <;> simp [mem_missing, mem_known, inside, gone]

include behind in
theorem repairRhs_eq (eq : Fin loss.missing.length) {w : ℕ} (word : w < loss.blockSize / 8) :
    loss.repairRhs words backend eq w = loss.recoveryWord words eq w +
      (loss.known.map fun index => words index w * loss.knownEntry words backend eq index).sum := by
  have small := loss.small
  have enough := loss.enough
  have row := eq.isLt
  have lengths (index : ℕ) (data : Buffer) (found : data ∈ (loss.state words).recByIdx index) :
      data.length = loss.blockSize := by
    rw [loss.recByIdx_behind words behind] at found
    split at found
    · obtain rfl := Option.mem_some.mp found
      rw [ofWords_length, loss.blockSize_eq]
    · cases found
  have exact (eq : ℕ) (row : eq < loss.missing.length) :
      double ((loss.matrix.first_recovery : ℤ) + (eq : ℤ)) = (loss.matrix.first_recovery + eq : ℕ) := by
    have rows := row.trans_le enough
    rw [← Nat.cast_add]
    exact double_natCast _ (by omega)
  have start : wordAt (((loss.state words).recByIdx (loss.matrix.first_recovery + eq)).getD
      (List.replicate loss.blockSize 0)) w = loss.recoveryWord words eq w := by
    have rows := row.trans_le enough
    rw [loss.recByIdx_behind words behind, if_pos (by omega), behind, Nat.add_sub_cancel_left,
      Option.getD_some, wordAt_ofWords _ _ _ word]
  rw [repairRhs, loss.knownInputIndices_eq words behind, ← start]
  refine ((loss.state words).rhs_apply backend _ _ _ lengths exact row word).trans
    (congrArg _ (congrArg List.sum (List.map_congr_left fun index member => ?_)))
  have input := ((loss.mem_known index).mp member).1
  rw [inputs_toNat, loss.available_behind words behind, if_neg (by omega), if_pos member,
    Option.getD_some, wordAt_ofWords _ _ _ word]
  rfl

/-- A recovery block is the contribution of the missing and of the known inputs. -/
theorem recoveryWord_eq (row w : ℕ) : loss.recoveryWord words row w =
    (loss.missing.map fun index => loss.coefficient row index * words index w).sum +
      (loss.known.map fun index => loss.coefficient row index * words index w).sum := by
  have split := List.sum_map_filter_add_sum_map_filter_not (fun index => loss.lost index = true)
    (fun index => loss.coefficient row index * words index w) (List.range loss.numInputs)
  have lost : loss.missing = (List.range loss.numInputs).filter
      fun index => decide (loss.lost index = true) :=
    List.filter_congr fun index _ => by cases loss.lost index <;> rfl
  have rest : loss.known = (List.range loss.numInputs).filter
      fun index => decide (¬ loss.lost index = true) :=
    List.filter_congr fun index _ => by cases loss.lost index <;> rfl
  rw [lost, rest, split]
  rfl

end Behind

/-! ## The solution -/

/-- The missing inputs and the first rows. -/
def pattern : LossPattern loss.missing.length where
  numInputs := loss.numInputs
  numRecovery := loss.numRecovery
  firstInput := loss.matrix.first_input
  firstRecovery := loss.matrix.first_recovery
  missing := loss.missing.get
  rows := Fin.val
  missing_inside := loss.missing_get_lt
  rows_inside eq := eq.isLt.trans_le loss.enough
  missing_distinct := loss.missing_injective
  rows_distinct := Fin.val_injective
  disjoint := loss.disjoint

theorem system_apply (eq col : Fin loss.missing.length) :
    loss.pattern.system eq col = loss.coefficient eq (loss.missing.get col) :=
  (coefficient_eq loss eq.isLt (loss.missing_get_lt col)).symm

theorem repairMatrix_apply (eq col : Fin loss.missing.length) :
    loss.repairMatrix words backend eq col = loss.entry backend eq (loss.missing.get col) := by
  rw [repairMatrix, loss.coefficientOf_eq words backend eq.isLt (loss.missing_get_lt col)]
  rfl

section Behind

variable (behind : loss.matrix.first_recovery = loss.numInputs)

include behind in
theorem repairMatrix_eq (kept : loss.indicesKept backend) :
    loss.repairMatrix words backend = loss.pattern.system := by
  funext eq col
  rw [repairMatrix_apply, system_apply]
  exact (loss.entry_iff backend behind eq.isLt (loss.missing_get_lt col)).mpr
    (kept _ (List.get_mem _ col))

include behind in
/-- The known inputs cancel. -/
theorem repairRhs_system (kept : loss.indicesKept backend) (eq : Fin loss.missing.length) {w : ℕ}
    (word : w < loss.blockSize / 8) : loss.repairRhs words backend eq w =
      ∑ col, loss.pattern.system eq col * words (loss.missing.get col) w := by
  have known : (loss.known.map fun index => words index w * loss.knownEntry words backend eq index) =
      loss.known.map fun index => loss.coefficient eq index * words index w := by
    refine List.map_congr_left fun index member => ?_
    rw [loss.knownEntry_eq words backend behind kept eq.isLt ((loss.mem_known index).mp member).1,
      mul_comm]
  rw [loss.repairRhs_eq words backend behind eq word, known, recoveryWord_eq, add_assoc,
    CharTwo.add_self_eq_zero, add_zero, ← Fin.sum_univ_fun_getElem]
  refine Finset.sum_congr rfl fun col _ => ?_
  rw [system_apply]
  rfl

include behind in
/-- Repair reports a singular system, or writes the blocks of the solution. -/
theorem reconstruct_eq :
    reconstruct backend (loss.state words) (loss.available words) loss.missing =
      (SolveAndReconstruct (loss.repairMatrix words backend) (loss.repairRhs words backend)).elim
        (.error .singular) fun solution =>
        .ok ((loss.state words).writeBlocks backend (loss.available words) loss.missing solution) := by
  rw [(loss.state words).reconstruct_eq backend _ _ (loss.entry backend)
    (fun eq row index member =>
      loss.coefficientOf_eq words backend row ((loss.mem_missing index).mp member).1)
    loss.blockSize_pos loss.blockSize_words]
  · congr 2
    funext eq col
    exact (loss.repairMatrix_apply words backend eq col).symm
  · intro index member
    rw [loss.knownInputIndices_eq words behind] at member
    have input := ((loss.mem_known index).mp member).1
    rw [loss.available_behind words behind, if_neg (by omega), if_pos member, Option.getD_some,
      ofWords_length, loss.blockSize_eq]
    exact le_rfl

include behind in
/-- Repair of a file that is read like this comes to the reconstruction. -/
theorem par3_repair_eq {blake3 : Hash} {file : Buffer}
    (read : readArchive blake3 backend file = .ok (loss.state words)) :
    par3_repair blake3 backend file =
      reconstruct backend (loss.state words) (loss.available words) loss.missing := by
  have small := loss.small
  have some_missing := loss.missing_pos
  have enough : loss.missing.length ≤ loss.numRecovery := loss.enough
  have ends : ¬ (2 ^ 53 < ((loss.numInputs + loss.numRecovery : ℕ) : ℤ) ∨
      ((loss.state words).recoveryData.any fun rec => decide (2 ^ 53 < rec.block_count)) = true) := by
    simp [state]
    omega
  have map : buildAvailableMap (loss.state words).startPacket.block_size
      (loss.state words).dataBlocks (loss.state words).recoveryData = loss.available words := rfl
  have declared : ¬ (loss.state words).totalRecoveryBlocks < loss.missing.length := by
    change ¬ (loss.numRecovery : ℤ) < loss.missing.length
    omega
  have packets : (loss.state words).recoveryData.length = loss.numRecovery := by simp [state]
  rw [par3_repair, read]
  simp only [total_eq, if_neg ends, map, Int.toNat_natCast, loss.missing_behind words behind,
    if_neg some_missing.ne', if_neg declared, packets, if_neg (Nat.not_lt.mpr enough)]

include behind in
/-- Without the native matrix, missing inputs whose indices are rounded to one number have the same
column. -/
theorem reconstruct_singular (unused : loss.nativeUsed backend = false)
    {left right : Fin loss.missing.length} (different : left ≠ right)
    (same : roundDouble (loss.matrix.first_input + loss.missing.get left) =
      roundDouble (loss.matrix.first_input + loss.missing.get right)) :
    reconstruct backend (loss.state words) (loss.available words) loss.missing = .error .singular := by
  have columns (eq : Fin loss.missing.length) : loss.repairMatrix words backend eq left =
      loss.repairMatrix words backend eq right := by
    rw [repairMatrix_apply, repairMatrix_apply, entry, entry, unused]
    simp only [Bool.false_eq_true, if_false, fallbackCoefficient, ← Nat.cast_add, double_natCast_eq,
      same]
  have singular := Matrix.det_zero_of_column_eq different columns
  have spec := SolveAndReconstruct_spec (loss.repairMatrix words backend) (loss.repairRhs words backend)
  rw [loss.reconstruct_eq words backend behind]
  cases solved : SolveAndReconstruct (loss.repairMatrix words backend)
      (loss.repairRhs words backend) with
  | none => rfl
  | some solution =>
    rw [solved] at spec
    exact absurd singular spec.1

include behind in
theorem returns_of_kept (kept : loss.indicesKept backend) : loss.Returns words backend := by
  have matrix := loss.repairMatrix_eq words backend behind kept
  have rhs {w : ℕ} (word : w < loss.blockSize / 8) :
      (fun eq => loss.repairRhs words backend eq w) = fun eq =>
        ∑ col, loss.pattern.system eq col * words (loss.missing.get col) w :=
    funext fun eq => loss.repairRhs_system words backend behind kept eq word
  have spec := SolveAndReconstruct_spec (loss.repairMatrix words backend)
    (loss.repairRhs words backend)
  have written := loss.reconstruct_eq words backend behind
  cases solved : SolveAndReconstruct (loss.repairMatrix words backend)
      (loss.repairRhs words backend) with
  | none =>
    rw [solved, matrix] at spec
    exact absurd spec loss.pattern.system_det_ne_zero
  | some solution =>
    have found (col : Fin loss.missing.length) (w : ℕ) (word : w < loss.blockSize / 8) :
        solution col w = words (loss.missing.get col) w := by
      refine ((SolveAndReconstruct_word solved w fun col => words (loss.missing.get col) w).mp
        (fun eq => ?_) col).symm
      rw [matrix]
      exact (congrFun (rhs word) eq).symm
    rw [solved] at written spec
    refine ⟨spec.1, ⟨solution, solved, found⟩, fun w word => ?_, fun w word => ?_,
      _, written, fun index member => ?_⟩
    · rw [matrix, rhs word]
      exact loss.pattern.solved.eachWord _
    · rw [matrix, rhs word]
      exact loss.pattern.solved.eachJsWord _
    · obtain ⟨col, rfl⟩ := List.get_of_mem member
      exact List.mem_map.mpr ⟨col, List.mem_finRange col,
        Prod.ext rfl (ofWords_congr _ fun w word => found col w word)⟩

include behind in
/-- When one word of one missing input is all that is not zero, the right-hand sides are a column of
the code, so that the solver for one word shows the entries that repair has made. -/
theorem kept_of_returns (returns : ∀ words, loss.Returns words backend) :
    loss.indicesKept backend := by
  intro index member
  obtain ⟨col, rfl⟩ := List.get_of_mem member
  have input := loss.missing_get_lt col
  have first : 0 < loss.blockSize / 8 := by
    have pos : 0 < loss.blockSize := loss.blockSize_pos
    have words := loss.blockSize_eq
    omega
  refine (loss.entry_iff backend behind loss.missing_pos input).mp ?_
  have solved := (returns fun index _ => if index = loss.missing.get col then 1 else 0).eachWord 0 first
  have spec := Elimination.solve_spec
    (loss.repairMatrix (fun index _ => if index = loss.missing.get col then 1 else 0) backend)
    (fun eq => loss.repairRhs (fun index _ => if index = loss.missing.get col then 1 else 0) backend eq 0)
  rw [gf64_solve_eq] at solved
  rw [solved] at spec
  have row := (spec.2 _).mpr rfl ⟨0, loss.missing_pos⟩
  have known : (loss.known.map fun index => (if index = loss.missing.get col then (1 : Gf64) else 0) *
      loss.knownEntry (fun index _ => if index = loss.missing.get col then 1 else 0) backend
        (⟨0, loss.missing_pos⟩ : Fin loss.missing.length) index).sum = 0 := by
    refine List.sum_eq_zero fun term present => ?_
    obtain ⟨other, listed, rfl⟩ := List.mem_map.mp present
    have unequal : other ≠ loss.missing.get col := by
      intro same
      have intact := ((loss.mem_known other).mp listed).2
      rw [same, ((loss.mem_missing _).mp member).2] at intact
      cases intact
    rw [if_neg unequal, zero_mul]
  rw [loss.repairRhs_eq _ backend behind _ first, known, add_zero, recoveryWord] at row
  simp only [smul_eq_mul, mul_ite, mul_one, mul_zero, repairMatrix_apply,
    loss.missing_injective.eq_iff, Finset.sum_ite_eq', Finset.mem_univ, if_true,
    Finset.mem_range, input] at row
  exact row

end Behind

end InputLoss

/-- Some of three inputs are lost, whose indices begin where doubles leave gaps. -/
def farInputs (lost : ℕ → Bool) (some_lost : ∃ index < 3, lost index) : InputLoss where
  startPacket := ⟨8, 8, 3⟩
  matrix := ⟨2 ^ 53, 2 ^ 53 + 2, 3, some 3, some 3, some 3⟩
  numInputs := 3
  numRecovery := 3
  lost := lost
  blockSize_pos := by decide
  blockSize_words := by decide
  counted := by decide +kernel
  small := by decide
  first_input_number := by decide +kernel
  first_recovery_number := by decide +kernel
  inside := by decide
  disjoint := by
    intro input inputInside row rowInside
    dsimp only at inputInside rowInside ⊢
    rw [ne_eq, gf64OfNat_eq_iff]
    omega
  some_lost := some_lost
  enough := (List.length_filter_le _ _).trans (by simp)

/-- The binding is there, and its matrix is switched off. -/
def fallbackBackend : Backend := ⟨true, false, true, fun _ _ => 0⟩

theorem first_lost (lost : ℕ → Bool) (first : lost 0 = true) : ∃ index < 3, lost index = true :=
  ⟨0, by decide, first⟩

/-- The packets that are left of an archive without a DATA packet. Its blocks are zeros. -/
def farPackets : List RawPacket :=
  createPacket byteSum .START [1, 2, 3, 4, 5, 6, 7, 8]
      ([8] ++ List.replicate 15 0 ++ toLittleEndian 8 8 ++ toLittleEndian 4 3 ++ toLittleEndian 2 8 ++
        toLittleEndian 4 0x1D) ::
    createPacket byteSum .CAUCHY [1, 2, 3, 4, 5, 6, 7, 8]
      (toLittleEndian 8 (2 ^ 53) ++ toLittleEndian 8 (2 ^ 53 + 2) ++ toLittleEndian 8 3 ++
        toLittleEndian 8 3 ++ toLittleEndian 4 3 ++ toLittleEndian 4 3) ::
    (List.range 3).map fun row => createPacket byteSum .RECOVERY [1, 2, 3, 4, 5, 6, 7, 8]
      (toLittleEndian 8 (3 + row) ++ toLittleEndian 8 1 ++ List.replicate 8 0)

/-- The archive that has lost all three inputs. -/
def farLost : InputLoss := farInputs (fun _ => true) (first_lost _ rfl)

theorem farPackets_wellFormed : ∀ packet ∈ farPackets, packet.WellFormed := by
  have lengths : ∀ packet ∈ farPackets, packet.checksum.length = 16 ∧ packet.inputSetId.length = 8 ∧
      48 + packet.body.length < 2 ^ 53 := by decide +kernel
  exact fun packet member =>
    ⟨(lengths packet member).1, (lengths packet member).2.1, (lengths packet member).2.2⟩

/-- Both passes read them as an archive that has lost inputs. -/
theorem farPackets_read : readArchive byteSum fallbackBackend (packetBytes farPackets) =
    .ok (farLost.state fun _ _ => 0) := by
  have zero (row : ℕ) : farLost.recoveryWord (fun _ _ => 0) row = fun _ => 0 := by
    funext w
    simp [InputLoss.recoveryWord]
  rw [InputLoss.state]
  simp only [zero]
  rw [readArchive_packets byteSum fallbackBackend farPackets farPackets_wellFormed
    ⟨8, 8, 3⟩ ⟨2 ^ 53, 2 ^ 53 + 2, 3, some 3, some 3, some 3⟩ (by decide +kernel) (by decide +kernel)
    (by decide +kernel)]
  decide +kernel

end Par3
