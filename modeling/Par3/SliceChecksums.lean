import Par3.HasherContract

/-!
# Checksums of the slices of a file

The file arrives in pieces that need not end where its slices do. The addon counts the bytes of the
slice, asks the hasher for its hashes whenever one is full, and puts them behind those of the slices
before. The last slice is padded with zeros.
-/
namespace Par3

variable {md5 : MD5}

/-- A slice of a file, with zeros behind the end of the file. -/
def paddedSlice (content : Buffer) (sliceSize index : ℕ) : Buffer :=
  slice content (index * sliceSize) ((index + 1) * sliceSize) ++
    List.replicate (sliceSize - (slice content (index * sliceSize) ((index + 1) * sliceSize)).length) 0

/-- The checksums of the first slices. -/
def sliceChecksums (md5 : MD5) (content : Buffer) (sliceSize count : ℕ) : Buffer :=
  (List.range count).flatMap fun index =>
    HasherInput.digests md5 (paddedSlice content sliceSize index)

/-- `numSlices` -/
def numSlices (size sliceSize : ℕ) : ℕ := (size + sliceSize - 1) / sliceSize

theorem digests_length (block : Buffer) : (HasherInput.digests md5 block).length = 20 := by
  rw [HasherInput.digests, List.length_append, MD5.hash, md5.bytes_length, toLittleEndian_length]

theorem sliceChecksums_succ (content : Buffer) (sliceSize count : ℕ) :
    sliceChecksums md5 content sliceSize (count + 1) =
      sliceChecksums md5 content sliceSize count ++
        HasherInput.digests md5 (paddedSlice content sliceSize count) := by
  rw [sliceChecksums, sliceChecksums, List.range_succ, List.flatMap_append, List.flatMap_singleton]

/-- Complete slices do not depend on what follows. -/
theorem sliceChecksums_append (content more : Buffer) (sliceSize count : ℕ)
    (inside : count * sliceSize ≤ content.length) :
    sliceChecksums md5 (content ++ more) sliceSize count =
      sliceChecksums md5 content sliceSize count := by
  refine List.flatMap_congr fun index member => ?_
  have before : (index + 1) * sliceSize ≤ count * sliceSize :=
    Nat.mul_le_mul_right _ (List.mem_range.mp member)
  rw [paddedSlice, paddedSlice, slice_append _ _ _ _ (by omega)]

/-- What was given so far: whole slices, with their checksums, and a part of the next one. -/
structure InputHasher.Given (hashing : InputHasher md5) (sliceSize total : ℕ)
    (done block : Buffer) (slices : ℕ) : Prop where
  holds : hashing.hasher.Holds (done ++ block) block
  size : hashing.bh.size = sliceSize
  pos : hashing.bh.pos = block.length
  short : block.length < sliceSize
  whole : done.length = slices * sliceSize
  ptr : hashing.bh.ptr = 20 * slices
  count : hashing.bh.count = total - slices
  memory : hashing.bh.ifscData.length = 20 * total
  stored : hashing.bh.ifscData.take (20 * slices) = sliceChecksums md5 done sliceSize slices

namespace InputHasher

variable {self : InputHasher md5} {sliceSize total slices : ℕ} {done block : Buffer}

theorem create_given (memory : Buffer) (length : memory.length = 128) (ifscData : Buffer)
    (entries : ifscData.length = 20 * total) (positive : 0 < sliceSize) :
    (create md5 memory sliceSize ifscData).Given sliceSize total [] [] 0 where
  holds := HasherInput.reset_holds memory length
  size := rfl
  pos := rfl
  short := positive
  whole := (Nat.zero_mul _).symm
  ptr := rfl
  count := by
    rw [create, entries]
    exact Nat.mul_div_cancel_left total (by omega)
  memory := entries
  stored := rfl

/-- The checksums of one more slice, which may end with the file. -/
theorem storeBlock_checksums (hasher : HasherInput md5) (bh : InputBlockHash)
    (holds : hasher.Holds (done ++ block) block) (left : slices < total)
    (whole : done.length = slices * sliceSize) (full : block.length ≤ sliceSize)
    (zeroPad : ℕ) (padded : zeroPad = sliceSize - block.length)
    (ptr : bh.ptr = 20 * slices) (count : bh.count = total - slices)
    (memory : bh.ifscData.length = 20 * total)
    (stored : bh.ifscData.take (20 * slices) = sliceChecksums md5 done sliceSize slices) :
    let after := storeBlock { hasher := hasher, bh := bh } zeroPad
    after.hasher.Holds (done ++ block) [] ∧ after.bh.size = bh.size ∧ after.bh.pos = bh.pos ∧
      after.bh.ptr = 20 * (slices + 1) ∧ after.bh.count = total - (slices + 1) ∧
      after.bh.ifscData.length = 20 * total ∧
      after.bh.ifscData.take (20 * (slices + 1)) =
        sliceChecksums md5 (done ++ block) sliceSize (slices + 1) := by
  have digests := holds.getBlock_digests zeroPad
  have this : slice (done ++ block) (slices * sliceSize) ((slices + 1) * sliceSize) = block := by
    rw [slice, ← whole, List.drop_left, List.take_of_length_le]
    rw [whole, Nat.succ_mul]
    omega
  have entry : (hasher.getBlock zeroPad).1 =
      HasherInput.digests md5 (paddedSlice (done ++ block) sliceSize slices) := by
    rw [digests, paddedSlice, this, padded]
  have length : (hasher.getBlock zeroPad).1.length = 20 := by rw [digests, digests_length]
  have written := memcpy_take bh.ifscData (hasher.getBlock zeroPad).1 bh.ptr
    (by rw [memory, ptr]; omega)
  rw [length, ptr, stored, ← sliceChecksums_append done block _ _ (by omega), entry,
    ← sliceChecksums_succ, ← entry] at written
  rw [storeBlock, if_pos (by simp only; omega)]
  refine ⟨holds.getBlock_holds zeroPad, rfl, rfl, ?_, ?_, ?_, ?_⟩
  · simp only
    omega
  · simp only
    omega
  · rw [← memory]
    exact memcpy_length _ _ _ (by rw [length, memory, ptr]; omega)
  · simp only [ptr]
    exact written

/-- Data up to the end of a slice and behind it. -/
theorem feed_given (rounds : ℕ) (self : InputHasher md5) (src : Buffer)
    (enough : src.length < rounds) (given : self.Given sliceSize total done block slices)
    (room : slices * sliceSize + block.length + src.length ≤ total * sliceSize) :
    ∃ done' block' slices', (feed rounds self src).Given sliceSize total done' block' slices' ∧
      done' ++ block' = done ++ block ++ src := by
  induction rounds generalizing self src done block slices with
  | zero => omega
  | succ rounds ih =>
    have short := given.short
    have whole := given.whole
    have blockLeft : self.bh.size - self.bh.pos = sliceSize - block.length := by
      rw [given.size, given.pos]
    rw [feed, blockLeft]
    simp only
    split
    case isTrue complete =>
      have taken : (src.take (sliceSize - block.length)).length = sliceSize - block.length := by
        rw [List.length_take]
        omega
      have full : (block ++ src.take (sliceSize - block.length)).length = sliceSize := by
        rw [List.length_append, taken]
        omega
      have left : slices < total := by
        by_contra beyond
        have most := Nat.mul_le_mul_right sliceSize (Nat.le_of_not_lt beyond)
        omega
      have updated := given.holds.update_holds (src.take (sliceSize - block.length))
      rw [List.append_assoc] at updated
      obtain ⟨holds, size, pos, ptr, count, memory, stored⟩ :=
        storeBlock_checksums (self.hasher.update (src.take (sliceSize - block.length)))
          { self.bh with pos := 0 } updated left given.whole (by omega) 0 (by omega) given.ptr
          given.count given.memory given.stored
      have next : (storeBlock
          { hasher := self.hasher.update (src.take (sliceSize - block.length))
            bh := { self.bh with pos := 0 } } 0).Given sliceSize total
          (done ++ (block ++ src.take (sliceSize - block.length))) [] (slices + 1) :=
        { holds := by rw [List.append_nil]; exact holds
          size := size.trans given.size
          pos := pos
          short := by rw [List.length_nil]; omega
          whole := by rw [List.length_append, full, given.whole, Nat.succ_mul]
          ptr := ptr
          count := count
          memory := memory
          stored := stored }
      obtain ⟨done', block', slices', after, same⟩ := ih _
        (src.drop (sliceSize - block.length)) (by rw [List.length_drop]; omega) next
        (by rw [List.length_drop, List.length_nil, Nat.succ_mul]; omega)
      refine ⟨done', block', slices', after, ?_⟩
      rw [same, List.append_nil, List.append_assoc, List.append_assoc, List.append_assoc,
        List.take_append_drop]
    case isFalse part =>
      refine ⟨done, block ++ src, slices, ⟨?_, given.size, ?_, ?_, whole, given.ptr, given.count,
        given.memory, given.stored⟩, (List.append_assoc _ _ _).symm⟩
      · split
        · rw [← List.append_assoc]
          exact given.holds.update_holds src
        · have none : src = [] := List.eq_nil_of_length_eq_zero (by omega)
          rw [none, List.append_nil]
          exact given.holds
      · simp only [given.pos, List.length_append]
      · rw [List.length_append]
        omega

theorem foldl_update_given (cuts : List Buffer) (self : InputHasher md5)
    (given : self.Given sliceSize total done block slices)
    (room : slices * sliceSize + block.length + cuts.flatten.length ≤ total * sliceSize) :
    ∃ done' block' slices', (cuts.foldl update self).Given sliceSize total done' block' slices' ∧
      done' ++ block' = done ++ block ++ cuts.flatten := by
  induction cuts generalizing self done block slices with
  | nil => exact ⟨done, block, slices, given, by simp⟩
  | cons src cuts ih =>
    rw [List.flatten_cons, List.length_append] at room
    obtain ⟨done', block', slices', after, same⟩ :=
      feed_given (src.length + 1) self src (by omega) given (by omega)
    have length := congrArg List.length same
    simp only [List.length_append, given.whole, after.whole] at length
    obtain ⟨done'', block'', slices'', final, whole⟩ := ih _ after (by omega)
    refine ⟨done'', block'', slices'', final, ?_⟩
    rw [whole, same, List.flatten_cons, List.append_assoc, List.append_assoc]

/-- The checksums of all slices, and the hash of the file. -/
theorem End_eq (given : self.Given sliceSize (numSlices (done ++ block).length sliceSize) done block
    slices) :
    self.End = (sliceChecksums md5 (done ++ block) sliceSize
      (numSlices (done ++ block).length sliceSize), md5.hash (done ++ block)) := by
  have short := given.short
  have zeroPad : self.bh.size - self.bh.pos = sliceSize - block.length := by
    rw [given.size, given.pos]
  have length : (done ++ block).length = slices * sliceSize + block.length := by
    rw [List.length_append, given.whole]
  rcases Nat.eq_zero_or_pos block.length with empty | part
  · have nothing : block = [] := List.eq_nil_of_length_eq_zero empty
    have total : numSlices (done ++ block).length sliceSize = slices := by
      rw [numSlices, length, empty, Nat.add_zero, Nat.add_sub_assoc (by omega), Nat.mul_comm,
        Nat.mul_add_div (by omega), Nat.div_eq_of_lt (by omega), Nat.add_zero]
    have count : ¬self.bh.count ≠ 0 := by
      rw [given.count, total]
      omega
    have holds := given.holds
    have memory := given.memory
    have stored := given.stored
    rw [total] at memory
    rw [List.take_of_length_le (by omega)] at stored
    rw [nothing] at holds
    rw [End, storeBlock, if_neg count, total, stored, nothing, holds.end_hash, List.append_nil]
  · have total : numSlices (done ++ block).length sliceSize = slices + 1 := by
      have parts : slices * sliceSize + block.length + sliceSize - 1 =
          sliceSize * (slices + 1) + (block.length - 1) := by
        rw [Nat.mul_succ, Nat.mul_comm]
        omega
      rw [numSlices, length, parts, Nat.mul_add_div (by omega), Nat.div_eq_of_lt (by omega),
        Nat.add_zero]
    obtain ⟨holds, -, -, -, -, memory, stored⟩ := storeBlock_checksums self.hasher self.bh
      given.holds (by omega : slices < numSlices (done ++ block).length sliceSize) given.whole
      (by omega) (self.bh.size - self.bh.pos) zeroPad given.ptr given.count given.memory given.stored
    rw [List.take_of_length_le (by rw [memory, total])] at stored
    rw [End, total]
    exact Prod.ext stored holds.end_hash

/-- For every way of cutting a file, the checksums of its slices and the hash of the whole file come
out. -/
theorem update_End_hashes (md5 : MD5) (memory : Buffer) (allocated : memory.length = 128)
    (content : Buffer) (sliceSize : ℕ) (positive : 0 < sliceSize) (cuts : List Buffer)
    (given : cuts.flatten = content) (ifscData : Buffer)
    (entries : ifscData.length = 20 * numSlices content.length sliceSize) :
    (cuts.foldl update (create md5 memory sliceSize ifscData)).End =
      (sliceChecksums md5 content sliceSize (numSlices content.length sliceSize),
        md5.hash content) := by
  have most : content.length ≤ numSlices content.length sliceSize * sliceSize := by
    have parts := Nat.div_add_mod (content.length + sliceSize - 1) sliceSize
    have rest := Nat.mod_lt (content.length + sliceSize - 1) positive
    rw [numSlices, Nat.mul_comm]
    omega
  obtain ⟨done, block, slices, after, same⟩ := foldl_update_given cuts _
    (create_given memory allocated ifscData entries positive)
    (by rw [given, Nat.zero_mul, List.length_nil, Nat.zero_add]; exact most)
  rw [List.nil_append, List.nil_append, given] at same
  rw [← same] at after ⊢
  exact End_eq after

/-- A hash that adds bytes up: three bytes in slices of two, cut in the middle of the first. -/
theorem update_End_hashes_three :
    let md5 : MD5 :=
      { State := ℕ
        init := 0
        process_block := fun state block => state + (block.map UInt8.toNat).sum
        bytes := fun state => toLittleEndian 16 state
        bytes_length := fun state => toLittleEndian_length 16 state }
    ([[1], [2, 3]].foldl update
      (create md5 (List.replicate 128 7) 2 (List.replicate 40 0))).End =
      (sliceChecksums md5 [1, 2, 3] 2 2, md5.hash [1, 2, 3]) :=
  update_End_hashes _ _ List.length_replicate _ _ (by decide) _ rfl _ rfl

end InputHasher

end Par3
