import Par3.CrcZeroPad
import Par3.Md5FinalBlock

/-!
# Both hashes follow the data

The file is what both hashers have processed, each in its own blocks, and what is pending for the
hasher of the file. The hasher of the slice has processed the same bytes but those behind its
offset. Every operation keeps that, so that the hashes are those of the file and of the slice.
-/
namespace Par3

variable {md5 : MD5}

theorem memcpy_length (target source : Buffer) (offset : ℕ)
    (inside : offset + source.length ≤ target.length) :
    (memcpy target offset source).length = target.length := by
  simp only [memcpy, List.length_append, List.length_take, List.length_drop]
  omega

/-- The bytes up to the end of those that were written. -/
theorem memcpy_take (target source : Buffer) (offset : ℕ) (inside : offset ≤ target.length) :
    (memcpy target offset source).take (offset + source.length) = target.take offset ++ source := by
  rw [memcpy]
  refine List.take_left' ?_
  rw [List.length_append, List.length_take, Nat.min_eq_left inside]

/-! ## The invariant -/

/-- What a hasher was given of the file and of the slice, and what of the file is pending. -/
structure HasherInput.Pending (hasher : HasherInput md5) (file block pending : Buffer) : Prop where
  ofFile : ∃ consumed, 64 ∣ consumed.length ∧ file = consumed ++ pending ∧
    hasher.md5File = md5.absorb md5.init consumed
  ofBlock : ∃ consumed, 64 ∣ consumed.length ∧ block = consumed ++ pending.drop hasher.posOffset ∧
    hasher.md5Block = md5.absorb md5.init consumed ∧
    hasher.crcState = crc_process_block crc_init consumed
  offset : hasher.posOffset ≤ pending.length
  small : hasher.posOffset < 64
  lengthBlock : hasher.dataLenBlock = block.length
  lengthFile : hasher.dataLenFile = file.length

/-- Between operations what is pending is in `tmp`, and less than a block for the slice. -/
structure HasherInput.Holds (hasher : HasherInput md5) (file block : Buffer) : Prop where
  pending : hasher.Pending file block (hasher.tmp.take hasher.tmpLen)
  short : hasher.tmpLen < 64 + hasher.posOffset
  memory : hasher.tmp.length = 128

namespace HasherInput

variable {self : HasherInput md5} {file block pending : Buffer}

theorem Pending.more (holds : self.Pending file block pending) (data : Buffer) :
    ({ self with
        dataLenBlock := self.dataLenBlock + data.length
        dataLenFile := self.dataLenFile + data.length }).Pending
      (file ++ data) (block ++ data) (pending ++ data) := by
  obtain ⟨consumedFile, wholeFile, ofFile, stateFile⟩ := holds.ofFile
  obtain ⟨consumedBlock, wholeBlock, ofBlock, stateBlock⟩ := holds.ofBlock
  refine ⟨⟨consumedFile, wholeFile, ?_, stateFile⟩, ⟨consumedBlock, wholeBlock, ?_, stateBlock⟩, ?_,
    holds.small, ?_, ?_⟩
  · rw [ofFile, List.append_assoc]
  · rw [ofBlock, List.append_assoc, List.drop_append_of_le_length holds.offset]
  · rw [List.length_append]
    exact Nat.le_add_right_of_le holds.offset
  · rw [List.length_append, ← holds.lengthBlock]
  · rw [List.length_append, ← holds.lengthFile]

/-- One block for each hash. -/
theorem Pending.processBlocks (holds : self.Pending file block pending)
    (enough : 64 + self.posOffset ≤ pending.length) (blockData fileData : Buffer)
    (ofBlock : blockData.take 64 = (pending.drop self.posOffset).take 64)
    (ofFile : fileData.take 64 = pending.take 64) :
    (self.processBlocks blockData fileData).Pending file block (pending.drop 64) := by
  obtain ⟨consumedFile, wholeFile, splitFile, stateFile⟩ := holds.ofFile
  obtain ⟨consumedBlock, wholeBlock, splitBlock, stateBlock, stateCrc⟩ := holds.ofBlock
  have lengthFile : (pending.take 64).length = 64 := by
    rw [List.length_take]
    omega
  have lengthBlock : ((pending.drop self.posOffset).take 64).length = 64 := by
    rw [List.length_take, List.length_drop]
    omega
  refine ⟨⟨consumedFile ++ pending.take 64, ?_, ?_, ?_⟩,
    ⟨consumedBlock ++ (pending.drop self.posOffset).take 64, ?_, ?_, ?_, ?_⟩, ?_, holds.small,
    holds.lengthBlock, holds.lengthFile⟩
  · rw [List.length_append, lengthFile]
    exact Nat.dvd_add wholeFile (Nat.dvd_refl 64)
  · rw [List.append_assoc, List.take_append_drop, splitFile]
  · rw [MD5.absorb_append _ wholeFile, MD5.absorb_one _ lengthFile, ← stateFile, ← ofFile]
    rfl
  · rw [List.length_append, lengthBlock]
    exact Nat.dvd_add wholeBlock (Nat.dvd_refl 64)
  · have same : (pending.drop 64).drop (self.processBlocks blockData fileData).posOffset =
        (pending.drop self.posOffset).drop 64 := by
      rw [List.drop_drop, List.drop_drop, Nat.add_comm]
      rfl
    rw [same, List.append_assoc, List.take_append_drop, splitBlock]
  · rw [MD5.absorb_append _ wholeBlock, MD5.absorb_one _ lengthBlock, ← stateBlock, ← ofBlock]
    rfl
  · have states : crc_process_block crc_init
          (consumedBlock ++ (pending.drop self.posOffset).take 64) =
        crc_process_block (crc_process_block crc_init consumedBlock)
          ((pending.drop self.posOffset).take 64) := List.foldl_append
    rw [states, ← stateCrc, ← ofBlock]
    rfl
  · rw [List.length_drop]
    exact (by omega : self.posOffset ≤ pending.length - 64)

/-- What is pending goes to `tmp`. -/
theorem Pending.store (holds : self.Pending file block pending)
    (short : pending.length < 64 + self.posOffset) (memory : self.tmp.length = 128) :
    ({ self with tmp := memcpy self.tmp 0 pending, tmpLen := pending.length } :
      HasherInput md5).Holds file block := by
  have small := holds.small
  have taken := memcpy_take self.tmp pending 0 (Nat.zero_le _)
  rw [Nat.zero_add, List.take_zero, List.nil_append] at taken
  refine ⟨?_, short, ?_⟩
  · rw [taken]
    exact ⟨holds.ofFile, holds.ofBlock, holds.offset, holds.small, holds.lengthBlock,
      holds.lengthFile⟩
  · rw [← memory]
    exact memcpy_length _ _ _ (by omega)

theorem updateBlocks_holds (rounds : ℕ) (self : HasherInput md5) (data : Buffer)
    (enough : data.length ≤ rounds) (holds : self.Pending file block data)
    (memory : self.tmp.length = 128) : (self.updateBlocks rounds data).Holds file block := by
  induction rounds generalizing self data with
  | zero => exact holds.store (by omega) memory
  | succ rounds ih =>
    rw [updateBlocks, MD5_BLOCKSIZE]
    split
    case isTrue whole =>
      refine ih _ _ ?_ (holds.processBlocks whole _ _ rfl rfl) memory
      rw [List.length_drop]
      omega
    case isFalse short => exact holds.store (by omega) memory

/-! ## What is left in `tmp` -/

/-- After the rest of `tmp` either all data is there, or the data from some point on is pending. -/
def Filled (file block : Buffer) : HasherInput md5 × Option Buffer → Prop
  | (self, none) => self.Holds file block
  | (self, some rest) => self.Pending file block rest ∧ self.tmp.length = 128

/-- The data is less than what a block needs. -/
theorem Pending.append (data : Buffer)
    (holds : self.Pending file block (self.tmp.take self.tmpLen ++ data))
    (short : data.length < 64 + self.posOffset - self.tmpLen) (memory : self.tmp.length = 128) :
    ({ self with
        tmp := memcpy self.tmp self.tmpLen data
        tmpLen := self.tmpLen + data.length } : HasherInput md5).Holds file block := by
  have small := holds.small
  refine ⟨?_, (by omega : self.tmpLen + data.length < 64 + self.posOffset), ?_⟩
  · rw [memcpy_take _ _ _ (by omega)]
    exact ⟨holds.ofFile, holds.ofBlock, holds.offset, holds.small, holds.lengthBlock,
      holds.lengthFile⟩
  · rw [← memory]
    exact memcpy_length _ _ _ (by omega)

/-- What is pending only depends on the states of the hashes. -/
theorem Pending.withTmp (holds : self.Pending file block pending) (tmp : Buffer) (tmpLen : ℕ) :
    ({ self with tmp := tmp, tmpLen := tmpLen } : HasherInput md5).Pending file block pending :=
  ⟨holds.ofFile, holds.ofBlock, holds.offset, holds.small, holds.lengthBlock, holds.lengthFile⟩

/-- The block of the slice begins with the data. -/
theorem fillTmp_aligned (rounds : ℕ) (data : Buffer) (aligned : self.tmpLen = self.posOffset)
    (holds : self.Pending file block (self.tmp.take self.tmpLen ++ data))
    (memory : self.tmp.length = 128) : Filled file block (self.fillTmp (rounds + 1) data) := by
  have small := holds.small
  rw [fillTmp, MD5_BLOCKSIZE]
  simp only
  split
  case isTrue short => exact holds.append data short memory
  case isFalse whole =>
    have stored : (self.tmp.take self.tmpLen).length = self.tmpLen := by
      rw [List.length_take]
      omega
    have taken : (data.take (64 - self.tmpLen)).length = 64 - self.tmpLen := by
      rw [List.length_take]
      omega
    have written := memcpy_take self.tmp (data.take (64 - self.tmpLen)) self.tmpLen (by omega)
    rw [taken, show self.tmpLen + (64 - self.tmpLen) = 64 by omega] at written
    rw [if_pos (by omega)]
    refine ⟨?_, ?_⟩
    · have next := (holds.withTmp (memcpy self.tmp self.tmpLen (data.take (64 - self.tmpLen)))
        self.tmpLen).processBlocks (by simp only [List.length_append, stored]; omega)
        data (memcpy self.tmp self.tmpLen (data.take (64 - self.tmpLen)))
        (by
          simp only
          rw [← aligned, List.drop_left' stored])
        (by rw [written, List.take_append, stored,
              List.take_of_length_le (i := 64) (l := self.tmp.take self.tmpLen) (by omega)])
      rw [List.drop_append, stored, List.drop_of_length_le (by omega), List.nil_append] at next
      exact next
    · rw [← memory]
      exact memcpy_length _ _ _ (by omega)

/-- Both blocks begin in `tmp`, or only that of the file. -/
theorem fillTmp_filled (data : Buffer) (behind : self.posOffset ≤ self.tmpLen)
    (inside : self.tmpLen < 64 + self.posOffset)
    (holds : self.Pending file block (self.tmp.take self.tmpLen ++ data))
    (memory : self.tmp.length = 128) : Filled file block (self.fillTmp 2 data) := by
  have small := holds.small
  by_cases aligned : self.tmpLen = self.posOffset
  · exact fillTmp_aligned 1 data aligned holds memory
  rw [fillTmp, MD5_BLOCKSIZE]
  simp only
  split
  case isTrue short => exact holds.append data short memory
  case isFalse whole =>
    rw [if_neg (by omega)]
    have stored : (self.tmp.take self.tmpLen).length = self.tmpLen := by
      rw [List.length_take]
      omega
    have taken : (data.take (64 + self.posOffset - self.tmpLen)).length =
        64 + self.posOffset - self.tmpLen := by
      rw [List.length_take]
      omega
    generalize written : memcpy self.tmp self.tmpLen
      (data.take (64 + self.posOffset - self.tmpLen)) = tmp
    have length : tmp.length = 128 := by
      rw [← written, ← memory]
      exact memcpy_length _ _ _ (by omega)
    have first := memcpy_take self.tmp (data.take (64 + self.posOffset - self.tmpLen)) self.tmpLen
      (by omega)
    rw [written, taken, show self.tmpLen + (64 + self.posOffset - self.tmpLen) =
      64 + self.posOffset by omega] at first
    have same : tmp.take (64 + self.posOffset) ++
        data.drop (64 + self.posOffset - self.tmpLen) = self.tmp.take self.tmpLen ++ data := by
      rw [first, List.append_assoc, List.take_append_drop]
    rw [← same] at holds
    have taken : (tmp.take (64 + self.posOffset)).length = 64 + self.posOffset := by
      rw [List.length_take]
      omega
    have next := (holds.withTmp tmp self.tmpLen).processBlocks
      (by simp only [List.length_append, taken]; omega) (tmp.drop self.posOffset) tmp
      (by
        simp only
        rw [List.drop_append_of_le_length (by omega), List.take_append_of_le_length
          (by rw [List.length_drop, taken]; omega), List.drop_take,
          show 64 + self.posOffset - self.posOffset = 64 by omega, List.take_take,
          Nat.min_self])
      (by
        rw [List.take_append_of_le_length (by omega), List.take_take,
          Nat.min_eq_left (by omega)])
    have shifted : (memcpy tmp 0 ((tmp.drop 64).take self.posOffset)).take self.posOffset =
        (tmp.take (64 + self.posOffset)).drop 64 := by
      have shift := memcpy_take tmp ((tmp.drop 64).take self.posOffset) 0 (by omega)
      have count : ((tmp.drop 64).take self.posOffset).length = self.posOffset := by
        rw [List.length_take, List.length_drop]
        omega
      rw [count, Nat.zero_add, List.take_zero, List.nil_append] at shift
      rw [shift, List.drop_take, show 64 + self.posOffset - 64 = self.posOffset by omega]
    rw [List.drop_append_of_le_length (by omega), ← shifted] at next
    refine fillTmp_aligned 0 _ rfl (next.withTmp _ _) ?_
    rw [← length]
    exact memcpy_length _ _ _ (by rw [List.length_take, List.length_drop]; omega)

/-! ## The operations -/

theorem reset_holds (memory : Buffer) (length : memory.length = 128) :
    (reset md5 memory).Holds [] [] := by
  refine ⟨⟨⟨[], ?_, ?_, rfl⟩, ⟨[], ?_, ?_, rfl, rfl⟩, ?_, ?_, rfl, rfl⟩, ?_, length⟩ <;> simp [reset]

theorem Holds.offset_le (holds : self.Holds file block) : self.posOffset ≤ self.tmpLen := by
  have offset := holds.pending.offset
  rw [List.length_take] at offset
  omega

theorem Holds.stored (holds : self.Holds file block) :
    (self.tmp.take self.tmpLen).length = self.tmpLen := by
  have small := holds.pending.small
  have short := holds.short
  have memory := holds.memory
  rw [List.length_take]
  omega

theorem Holds.update_holds (holds : self.Holds file block) (data : Buffer) :
    (self.update data).Holds (file ++ data) (block ++ data) := by
  have more := holds.pending.more data
  rw [update]
  simp only
  split
  case isTrue stored =>
    have filled := @fillTmp_filled md5
      { self with
        dataLenBlock := self.dataLenBlock + data.length
        dataLenFile := self.dataLenFile + data.length }
      _ _ data holds.offset_le holds.short more holds.memory
    split
    · rename_i after result
      rw [result] at filled
      exact filled
    · rename_i after rest result
      rw [result] at filled
      exact updateBlocks_holds _ _ _ (le_refl _) filled.1 filled.2
  case isFalse empty =>
    have nothing : self.tmp.take self.tmpLen = [] := by rw [not_not.mp empty, List.take_zero]
    rw [nothing, List.nil_append] at more
    exact updateBlocks_holds _ _ _ (le_refl _) more holds.memory

/-- A new slice begins where the file is, whatever was given to the last one. -/
theorem resetBlock_ofFile (ofFile : ∃ consumed, 64 ∣ consumed.length ∧
      file = consumed ++ self.tmp.take self.tmpLen ∧ self.md5File = md5.absorb md5.init consumed)
    (lengthFile : self.dataLenFile = file.length) (short : self.tmpLen < 128)
    (memory : self.tmp.length = 128) : self.resetBlock.Holds file [] := by
  obtain ⟨consumed, whole, split, state⟩ := ofFile
  have stored : (self.tmp.take self.tmpLen).length = self.tmpLen := by
    rw [List.length_take]
    omega
  have nothing (rest : Buffer) (offset : ℕ) (length : rest.length = offset) :
      ([] : Buffer) = [] ++ rest.drop offset := by
    rw [← length, List.drop_length, List.append_nil]
  rw [resetBlock, MD5_BLOCKSIZE]
  split
  case isTrue block =>
    have kept : (memcpy self.tmp 0 ((self.tmp.drop 64).take (self.tmpLen - 64))).take
        (self.tmpLen - 64) = (self.tmp.take self.tmpLen).drop 64 := by
      have shift := memcpy_take self.tmp ((self.tmp.drop 64).take (self.tmpLen - 64)) 0 (by omega)
      have count : ((self.tmp.drop 64).take (self.tmpLen - 64)).length = self.tmpLen - 64 := by
        rw [List.length_take, List.length_drop]
        omega
      rw [count, Nat.zero_add, List.take_zero, List.nil_append] at shift
      rw [shift, List.drop_take]
    have first : (self.tmp.take self.tmpLen).take 64 = self.tmp.take 64 := by
      rw [List.take_take, Nat.min_eq_left block]
    have one : (self.tmp.take 64).length = 64 := by
      rw [List.length_take]
      omega
    have left : ((self.tmp.take self.tmpLen).drop 64).length = self.tmpLen - 64 := by
      rw [List.length_drop, stored]
    refine ⟨⟨⟨consumed ++ self.tmp.take 64, ?_, ?_, ?_⟩, ⟨[], ?_, ?_, rfl, rfl⟩, ?_, ?_, rfl,
      lengthFile⟩, ?_, ?_⟩
    · rw [List.length_append, one]
      exact Nat.dvd_add whole (Nat.dvd_refl 64)
    · simp only
      rw [kept, ← first, List.append_assoc, List.take_append_drop, split]
    · rw [MD5.absorb_append _ whole, MD5.absorb_one _ one, ← state]
    · simp
    · simp only
      rw [kept]
      exact nothing _ _ left
    · simp only
      rw [kept, left]
    · simp only
      omega
    · simp only
      omega
    · rw [← memory]
      exact memcpy_length _ _ _ (by rw [List.length_take, List.length_drop]; omega)
  case isFalse less =>
    refine ⟨⟨⟨consumed, whole, split, state⟩, ⟨[], ?_, nothing _ _ stored, rfl, rfl⟩, ?_, ?_, rfl,
      lengthFile⟩, ?_, memory⟩
    · simp
    · simp only
      rw [stored]
    · simp only
      omega
    · simp only
      omega

theorem Holds.resetBlock_holds (holds : self.Holds file block) : self.resetBlock.Holds file [] := by
  have small := holds.pending.small
  have short := holds.short
  exact resetBlock_ofFile holds.pending.ofFile holds.pending.lengthFile (by omega) holds.memory

/-- The hashes of a slice with zero bytes behind, as they are stored. -/
def digests (md5 : MD5) (block : Buffer) : Buffer :=
  md5.hash block ++ toLittleEndian 4 (crc32 block).toNat

theorem Holds.getBlock_digests (holds : self.Holds file block) (zeroPad : ℕ) :
    (self.getBlock zeroPad).1 = digests md5 (block ++ List.replicate zeroPad 0) := by
  obtain ⟨consumed, ⟨count, whole⟩, split, state, crc⟩ := holds.pending.ofBlock
  have offset := holds.offset_le
  have short := holds.short
  have memory := holds.memory
  have small := holds.pending.small
  have rest : (self.tmp.take self.tmpLen).drop self.posOffset =
      (self.tmp.drop self.posOffset).take (self.tmpLen - self.posOffset) := by
    rw [List.drop_take]
  have length : ((self.tmp.drop self.posOffset).take (self.tmpLen - self.posOffset)).length =
      self.tmpLen - self.posOffset := by
    rw [List.length_take, List.length_drop]
    omega
  have total : self.dataLenBlock % 64 = self.tmpLen - self.posOffset := by
    rw [holds.pending.lengthBlock, split, rest, List.length_append, length, whole]
    omega
  have parts : block =
      consumed ++ (self.tmp.drop self.posOffset).take (self.dataLenBlock % 64) := by
    rw [split, rest, total]
  have hash : md5.bytes (md5_final_block md5 self.md5Block (self.tmp.drop self.posOffset)
      self.dataLenBlock zeroPad) = md5.hash (block ++ List.replicate zeroPad 0) := by
    rw [md5_final_block_eq _ _ _ _ (by rw [List.length_drop]; omega), state,
      ← MD5.absorb_append _ ⟨count, whole⟩, MD5.hash, List.length_append, List.length_replicate,
      ← holds.pending.lengthBlock, ← List.append_assoc, ← List.append_assoc, ← parts]
  have sum : crc_zeroPad (crc_finish self.crcState
      ((self.tmp.drop self.posOffset).take (self.dataLenBlock % MD5_BLOCKSIZE))) zeroPad =
      crc32 (block ++ List.replicate zeroPad 0) := by
    rw [crc, crc_finish_process, MD5_BLOCKSIZE, ← parts, ← crc32, crc_zeroPad_crc32]
  rw [getBlock, digests, ← hash, ← sum]

theorem Holds.getBlock_holds (holds : self.Holds file block) (zeroPad : ℕ) :
    (self.getBlock zeroPad).2.Holds file [] := holds.resetBlock_holds

/-- Behind the last slice there is less than a block left for the file. -/
theorem Holds.end_hash (holds : self.Holds file []) : self.end_ = md5.hash file := by
  obtain ⟨consumed, ⟨count, whole⟩, split, state⟩ := holds.pending.ofFile
  obtain ⟨_, -, nothing, -⟩ := holds.pending.ofBlock
  have small := holds.pending.small
  have memory := holds.memory
  have stored := holds.stored
  have left : self.tmpLen ≤ self.posOffset := by
    have empty := List.drop_eq_nil_iff.mp (List.append_eq_nil_iff.mp nothing.symm).2
    rwa [stored] at empty
  have total : self.dataLenFile % 64 = self.tmpLen := by
    rw [holds.pending.lengthFile, split, List.length_append, stored, whole]
    omega
  rw [end_, MD5_BLOCKSIZE, if_neg (by omega), md5_final_block_eq _ _ _ _ (by omega), state,
    ← MD5.absorb_append _ ⟨count, whole⟩, total, MD5.hash, ← holds.pending.lengthFile,
    List.replicate_zero, List.append_nil, ← List.append_assoc, ← split, Nat.add_zero]

end HasherInput

end Par3
