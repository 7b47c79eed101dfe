import Par3.DamagedSystem
import Par3.Foundations.CauchyMatrix

/-!
# What repair restores

Repair is meant to restore every lost input as long as no more inputs are lost than recovery
blocks survive. It does so exactly when its own bookkeeping allows it. Lost recovery blocks
are solved for as if they were inputs, so each of them costs two. The equations are the
first rows of the code whether or not their RECOVERY packets survive, and the native matrix
has no columns for lost recovery blocks. What enters the equations wrongly in this way, or
from the windows of short blocks, has to be absorbed by the unknowns of lost recovery blocks.

Where only late recovery blocks are lost and no short block survives, nothing enters wrongly
and the Cauchy matrix is nonsingular, so that repair restores every lost input.
-/

namespace Par3

namespace Damage

variable {blake3 : Hash} (damage : Damage blake3) (archive : Archive) (backend : Backend)

/-! ## When repair reconstructs -/

/-- As many RECOVERY packets survive as inputs are lost. -/
def enoughSurvive : Prop :=
  (damage.lostInputs archive).length + (damage.lostRecovery archive).length ≤
    archive.recoveryPackets

/-- The system of repair has its equations, its matrix can be read, and it is nonsingular. -/
structure Solvable : Prop where
  equations : (damage.lostInputs archive).length + 2 * (damage.lostRecovery archive).length ≤
    archive.recoveryPackets
  readable : damage.nativeUsed archive backend = true → damage.lostRecovery archive = []
  nonsingular : (damage.systemMatrix archive).det ≠ 0

theorem equations_iff : damage.equations archive ↔
    (damage.lostInputs archive).length + 2 * (damage.lostRecovery archive).length ≤
      archive.recoveryPackets := by
  have counts := damage.recoveryData_length archive
  have length := damage.missing_length archive
  unfold equations
  omega

theorem missing_eq_zero : (damage.missing archive).length = 0 ↔
    damage.lostInputs archive = [] ∧ damage.lostRecovery archive = [] := by
  rw [missing_length, Nat.add_eq_zero_iff, List.length_eq_zero_iff, List.length_eq_zero_iff]

/-- An archive without losses is written as it is read. -/
theorem par3_repair_complete (nonempty : 0 < archive.totalBlocks)
    (complete : (damage.missing archive).length = 0) :
    ∃ result, par3_repair blake3 backend (damage.file archive) = .ok result ∧
      result.blocks = (damage.dataBlocks archive).map DataBlock.data := by
  rw [damage.par3_repair_file archive backend nonempty, if_pos complete]
  exact ⟨_, rfl, rfl⟩

/-- With losses repair succeeds only through the reconstruction. -/
theorem par3_repair_lossy (nonempty : 0 < archive.totalBlocks)
    (lossy : 0 < (damage.missing archive).length) (result : RepairResult) :
    par3_repair blake3 backend (damage.file archive) = .ok result ↔
      damage.equations archive ∧
        reconstruct backend (damage.state archive) (damage.available archive)
          (damage.missing archive) = .ok result := by
  have counts := damage.recoveryData_length archive
  have packets := archive.recoveryPackets_le
  rw [damage.par3_repair_file archive backend nonempty, if_neg (by omega)]
  by_cases enough : damage.equations archive
  · have inside : (damage.missing archive).length ≤ (damage.recoveryData archive).length := enough
    rw [if_neg (by omega), if_neg (by omega)]
    exact ⟨fun same => ⟨enough, same⟩, fun both => both.2⟩
  · have short : (damage.recoveryData archive).length < (damage.missing archive).length :=
      Nat.lt_of_not_le enough
    constructor
    · intro success
      by_cases many : archive.recoverySlices < (damage.missing archive).length
      · rw [if_pos many] at success
        cases success
      · rw [if_neg many, if_pos short] at success
        cases success
    · exact fun both => absurd both.1 enough

/-- Repair of an archive with losses, for any property of the written blocks. -/
theorem par3_repair_iff (nonempty : 0 < archive.totalBlocks)
    (lossy : 0 < (damage.missing archive).length) (holds : ℕ → Buffer → Prop) :
    (∃ result, par3_repair blake3 backend (damage.file archive) = .ok result ∧
      ∀ index ∈ damage.lostInputs archive, ∃ block,
        (index, block) ∈ result.blockFiles ∧ holds index block) ↔
    damage.Solvable archive backend ∧ ∃ candidate : ℕ → Buffer,
      (∀ index ∈ damage.lostInputs archive,
        (candidate index).length = archive.blockSize ∧ holds index (candidate index)) ∧
      damage.explains archive candidate := by
  simp only [damage.par3_repair_lossy archive backend nonempty lossy]
  constructor
  · rintro ⟨result, ⟨enough, success⟩, restored⟩
    obtain ⟨readable, nonsingular, found⟩ := (damage.reconstruct_iff archive backend nonempty lossy
      enough holds).mp ⟨result, success, restored⟩
    exact ⟨⟨(damage.equations_iff archive).mp enough, readable, nonsingular⟩, found⟩
  · rintro ⟨⟨equations, readable, nonsingular⟩, found⟩
    have enough := (damage.equations_iff archive).mpr equations
    obtain ⟨result, success, restored⟩ := (damage.reconstruct_iff archive backend nonempty lossy
      enough holds).mpr ⟨readable, nonsingular, found⟩
    exact ⟨result, ⟨enough, success⟩, restored⟩

/-! ## Lost inputs -/

/-- Repair succeeds and every reconstructed input is the original padded block. -/
def restoresLostInputs : Prop :=
  ∃ result, par3_repair blake3 backend (damage.file archive) = .ok result ∧
    ∀ index ∈ damage.lostInputs archive, (index, archive.inputBlock index) ∈ result.blockFiles

/-- Some values of the lost recovery blocks make up for everything that enters the
equations wrongly. -/
def absorbed : Prop :=
  ∀ w < archive.blockSize / 8, ∃ filler : ℕ → Gf64, ∀ eq < (damage.missing archive).length,
    ((damage.lostRecovery archive).map fun row =>
      archive.coefficient eq (archive.totalBlocks + row) * filler row).sum =
      damage.error archive eq w

/-- The condition under which repair restores the lost inputs. -/
def restorable : Prop :=
  0 < archive.totalBlocks ∧
    ((damage.lostInputs archive = [] ∧ damage.lostRecovery archive = []) ∨
      (damage.Solvable archive backend ∧ damage.absorbed archive))

theorem explains_inputBlock : damage.explains archive archive.inputBlock ↔
    damage.absorbed archive := by
  unfold explains absorbed
  simp only [add_right_inj]

theorem explains_congr {left right : ℕ → Buffer}
    (same : ∀ index ∈ damage.lostInputs archive, left index = right index) :
    damage.explains archive left ↔ damage.explains archive right := by
  have contributions (eq w : ℕ) :
      contribution archive (damage.lostInputs archive) left eq w =
        contribution archive (damage.lostInputs archive) right eq w := by
    refine congrArg List.sum (List.map_congr_left fun index member => ?_)
    rw [same index member]
  unfold explains
  simp only [contributions]

/-- Repair restores the lost inputs exactly under its condition. -/
theorem restoresLostInputs_iff : damage.restoresLostInputs archive backend ↔
    damage.restorable archive backend := by
  rcases Nat.eq_zero_or_pos archive.totalBlocks with empty | nonempty
  · constructor
    · rintro ⟨result, success, _⟩
      rw [damage.par3_repair_empty archive backend empty] at success
      cases success
    · exact fun condition => absurd empty condition.1.ne'
  rcases Nat.eq_zero_or_pos (damage.missing archive).length with complete | lossy
  · obtain ⟨inputs, recovery⟩ := (damage.missing_eq_zero archive).mp complete
    obtain ⟨result, success, _⟩ := damage.par3_repair_complete archive backend nonempty complete
    constructor
    · exact fun _ => ⟨nonempty, .inl ⟨inputs, recovery⟩⟩
    · refine fun _ => ⟨result, success, fun index lost => ?_⟩
      rw [inputs] at lost
      cases lost
  · have general := damage.par3_repair_iff archive backend nonempty lossy
      fun index block => block = archive.inputBlock index
    simp only [exists_eq_right] at general
    rw [restoresLostInputs, general, restorable]
    constructor
    · rintro ⟨solvable, candidate, same, explained⟩
      refine ⟨nonempty, .inr ⟨solvable, ?_⟩⟩
      rw [← explains_inputBlock]
      exact (damage.explains_congr archive fun index lost => (same index lost).2).mp explained
    · rintro ⟨_, complete | ⟨solvable, absorbed⟩⟩
      · have none := (damage.missing_eq_zero archive).mpr complete
        omega
      · exact ⟨solvable, archive.inputBlock,
          fun index _ => ⟨archive.inputBlock_length index, rfl⟩,
          (damage.explains_inputBlock archive).mpr absorbed⟩

/-- Whenever enough recovery blocks survive: repair restores the lost inputs if and only if
its condition holds. -/
theorem repair_restores_lost_inputs :
    (damage.enoughSurvive archive → damage.restoresLostInputs archive backend) ↔
      (damage.enoughSurvive archive → damage.restorable archive backend) :=
  imp_congr_right fun _ => damage.restoresLostInputs_iff archive backend

/-! ## Losses that repair can handle -/

/-- When the lost recovery blocks lie behind the rows that are used, the system is a Cauchy
matrix and nonsingular. -/
theorem systemMatrix_nonsingular (enough : damage.equations archive)
    (late : ∀ row ∈ damage.lostRecovery archive, (damage.missing archive).length ≤ row) :
    (damage.systemMatrix archive).det ≠ 0 := by
  have small (eq : Fin (damage.missing archive).length) : archive.totalBlocks + eq < 2 ^ 64 := by
    have exact := archive.exact_total eq (damage.equation_inside archive enough eq.isLt)
    omega
  have listed (col : Fin (damage.missing archive).length) :
      (damage.missing archive).get col < 2 ^ 64 := by
    have exact := damage.missing_exact archive (List.get_mem _ col)
    omega
  have apart (eq col : Fin (damage.missing archive).length) :
      (damage.missing archive).get col ≠ archive.totalBlocks + eq := by
    have inside := eq.isLt
    rcases (damage.mem_missing archive _).mp (List.get_mem _ col) with input | ⟨row, lost, same⟩
    · have bound := ((damage.mem_lostInputs archive _).mp input).1
      omega
    · have behind := late row lost
      omega
  let rowPoint (eq : Fin (damage.missing archive).length) : Gf64 :=
    gf64OfNat (archive.totalBlocks + eq)
  let columnPoint (col : Fin (damage.missing archive).length) : Gf64 :=
    gf64OfNat ((damage.missing archive).get col)
  have entries : damage.systemMatrix archive = CauchyMatrix.cauchy rowPoint columnPoint := by
    funext eq col
    have nonzero := mt (gf64OfNat_add_eq_zero (listed col) (small eq)).mp (apart eq col)
    rw [systemMatrix, Archive.coefficient, cauchyCoefficient, Nat.zero_add, if_neg nonzero,
      CauchyMatrix.cauchy, CharTwo.sub_eq_add, add_comm]
  rw [entries]
  refine CauchyMatrix.cauchy_det_ne_zero _ _ ?_ ?_ ?_
  · intro first second same
    have equal := gf64OfNat_injective (small first) (small second) same
    exact Fin.ext (by omega)
  · intro first second same
    exact (List.nodup_iff_injective_get.mp (damage.missing_nodup archive))
      (gf64OfNat_injective (listed first) (listed second) same)
  · intro eq col same
    exact apart eq col (gf64OfNat_injective (small eq) (listed col) same).symm

/-- The window of a full block is the block, which needs no padding. -/
theorem readBlock_full {index : ℕ}
    (full : (archive.blockData.getD index []).length = archive.blockSize) :
    damage.readBlock archive index = archive.inputBlock index := by
  rw [readBlock, Archive.inputBlock, padBlock, full, Nat.sub_self, List.replicate_zero,
    List.append_nil, List.take_append_of_le_length full.ge, ← full, List.take_length]

/-- Enough recovery blocks counted twice, none of those used lost, and no short block that
survives: repair restores every lost input. -/
theorem restoresLostInputs_of_late (nonempty : 0 < archive.totalBlocks)
    (enough : damage.equations archive)
    (late : ∀ row ∈ damage.lostRecovery archive, (damage.missing archive).length ≤ row)
    (readable : damage.nativeUsed archive backend = true → damage.lostRecovery archive = [])
    (full : ∀ index ∈ damage.survivors archive,
      (archive.blockData.getD index []).length = archive.blockSize) :
    damage.restoresLostInputs archive backend := by
  refine (damage.restoresLostInputs_iff archive backend).mpr ⟨nonempty, .inr ⟨⟨?_, readable, ?_⟩, ?_⟩⟩
  · exact (damage.equations_iff archive).mp enough
  · exact damage.systemMatrix_nonsingular archive enough late
  intro w _
  refine ⟨fun _ => 0, fun eq row => ?_⟩
  have survives : (damage.recovery eq).survives = true := by
    by_contra lost
    have behind := late eq ((damage.mem_lostRecovery archive eq).mpr
      ⟨damage.equation_inside archive enough row, Bool.eq_false_iff.mpr lost⟩)
    omega
  have windows : contribution archive (damage.survivors archive) (damage.readBlock archive) eq w =
      contribution archive (damage.survivors archive) archive.inputBlock eq w := by
    refine congrArg List.sum (List.map_congr_left fun index member => ?_)
    rw [damage.readBlock_full archive (full index member)]
  rw [error, if_pos survives, windows, CharTwo.add_self_eq_zero]
  simp

end Damage

/-- A file of one full block. -/
def blockFile : SourceFile where
  name := [97]
  contents := List.replicate 1024 1
  mode := 0
  fileId := List.replicate 16 0

/-- One full block and two recovery blocks. -/
def oneBlock : Archive where
  blockSize := 1024
  files := [blockFile]
  recoverySlices := 2
  creator := none
  inputSetId := List.replicate 8 0
  blockSize_pos := by decide
  blockSize_words := by decide
  blockSize_small := by decide
  names_small := by decide +kernel
  files_small := by simp
  creator_small := by simp
  inputSetId_length := by simp
  totalBlocks_small := by decide +kernel
  recoverySlices_small := by decide

theorem oneBlock_totalBlocks : oneBlock.totalBlocks = 1 := by decide +kernel

/-- The DATA packet and the first RECOVERY packet are dropped. -/
def firstLost (blake3 : Hash) : Damage blake3 where
  data := fun _ => .lost
  recovery := fun row => if row = 0 then .lost else .intact
  data_fails := by
    intro index replacement fate
    cases fate
  recovery_fails := by
    intro row replacement fate
    split at fate <;> cases fate

/-- The second recovery block suffices for the lost block, but repair counts the first one as
another missing block and gives up. -/
theorem first_recovery_lost : ¬ ∃ (blake3 : Hash) (backend : Backend),
    (firstLost blake3).enoughSurvive oneBlock →
      (firstLost blake3).restoresLostInputs oneBlock backend := by
  rintro ⟨blake3, backend, claimed⟩
  have packets : oneBlock.recoveryPackets = 2 := by
    rw [Archive.recoveryPackets, oneBlock_totalBlocks]
    rfl
  have inputs : (firstLost blake3).lostInputs oneBlock = [0] := by
    rw [Damage.lostInputs, oneBlock_totalBlocks]
    rfl
  have recovery : (firstLost blake3).lostRecovery oneBlock = [0] := by
    rw [Damage.lostRecovery, packets]
    rfl
  have nonempty : 0 < oneBlock.totalBlocks := by
    rw [oneBlock_totalBlocks]
    exact Nat.one_pos
  have lossy : 0 < ((firstLost blake3).missing oneBlock).length := by
    rw [Damage.missing_length, inputs, recovery]
    decide
  obtain ⟨result, success, _⟩ := claimed (by
    rw [Damage.enoughSurvive, inputs, recovery, packets]
    decide)
  obtain ⟨enough, _⟩ := ((firstLost blake3).par3_repair_lossy oneBlock backend nonempty lossy
    result).mp success
  have equations := ((firstLost blake3).equations_iff oneBlock).mp enough
  rw [inputs, recovery, packets] at equations
  exact absurd equations (by decide)

end Par3
