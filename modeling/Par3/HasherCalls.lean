import Par3.HasherContract

/-!
# Any order of calls

Slices may be ended with or without their hashes, and bytes may be given to the file alone. Every hash of
a slice is right after any calls. The hash of the file is right unless a whole block is pending at the end:
that block is processed, but the bytes behind it are then taken from its beginning.
-/
namespace Par3

namespace HasherInput

variable {md5 : MD5}

/-- The state of the file alone, with the bytes that are pending for it and their number. -/
def fileHash (self : HasherInput md5) : md5.State × Buffer × ℕ :=
  if self.tmpLen ≥ MD5_BLOCKSIZE then
    (md5.process_block self.md5File (self.tmp.take MD5_BLOCKSIZE),
      (self.tmp.drop MD5_BLOCKSIZE).take (self.tmpLen - MD5_BLOCKSIZE), self.tmpLen - MD5_BLOCKSIZE)
  else (self.md5File, self.tmp.take self.tmpLen, self.tmpLen)

/-- A block that begins with the pending bytes, and the data behind it. -/
def fileBlock (state : md5.State) (tmp : Buffer) (tmpLen : ℕ) (data : Buffer) : md5.State × Buffer :=
  if tmpLen > 0 then
    let consume := MD5_BLOCKSIZE - tmpLen
    (md5.process_block state (tmp ++ data.take consume), data.drop consume)
  else (state, data)

/-- Bytes for the file alone, which end the slice. -/
def updateFile (self : HasherInput md5) (data : Buffer) : HasherInput md5 :=
  if data.length = 0 then self
  else
    let self := { self with dataLenFile := self.dataLenFile + data.length }
    if data.length + self.tmpLen < MD5_BLOCKSIZE * 2 then
      resetBlock { self with
        tmp := memcpy self.tmp self.tmpLen data
        tmpLen := self.tmpLen + data.length }
    else
      let (state, tmp, tmpLen) := self.fileHash
      let (state, data) := fileBlock state tmp tmpLen data
      let blocks := data.length / MD5_BLOCKSIZE
      let rest := data.drop (blocks * MD5_BLOCKSIZE)
      { self with
        tmp := memcpy self.tmp 0 rest
        tmpLen := rest.length
        md5File := md5.blocks blocks state data
        md5Block := md5.init
        crcState := crc_init
        posOffset := rest.length
        dataLenBlock := 0 }

variable {self : HasherInput md5} {file block : Buffer}

/-- The first bytes of a file that were processed are whole blocks; the others follow. -/
def Absorbed (file : Buffer) (state : md5.State) (rest : Buffer) : Prop :=
  ∃ consumed, 64 ∣ consumed.length ∧ file = consumed ++ rest ∧ state = md5.absorb md5.init consumed

theorem Absorbed.more {state : md5.State} {rest : Buffer} (absorbed : Absorbed file state rest)
    (data : Buffer) : Absorbed (file ++ data) state (rest ++ data) := by
  obtain ⟨consumed, whole, split, reached⟩ := absorbed
  exact ⟨consumed, whole, by rw [split, List.append_assoc], reached⟩

theorem Absorbed.blocks {state : md5.State} {first rest : Buffer}
    (absorbed : Absorbed file state (first ++ rest)) (whole : 64 ∣ first.length) :
    Absorbed file (md5.absorb state first) rest := by
  obtain ⟨consumed, multiple, split, reached⟩ := absorbed
  refine ⟨consumed ++ first, ?_, ?_, ?_⟩
  · rw [List.length_append]
    exact Nat.dvd_add multiple whole
  · rw [split, List.append_assoc]
  · rw [MD5.absorb_append _ multiple, ← reached]

theorem Absorbed.one {state : md5.State} {first rest : Buffer}
    (absorbed : Absorbed file state (first ++ rest)) (whole : first.length = 64) :
    Absorbed file (md5.process_block state first) rest := by
  rw [← MD5.absorb_one state whole]
  exact absorbed.blocks (by rw [whole])

theorem Holds.absorbed (holds : self.Holds file block) :
    Absorbed file self.md5File (self.tmp.take self.tmpLen) := holds.pending.ofFile

theorem Holds.fileHash_absorbed (holds : self.Holds file block) :
    Absorbed file self.fileHash.1 self.fileHash.2.1 ∧
      self.fileHash.2.1.length = self.fileHash.2.2 ∧ self.fileHash.2.2 < 64 := by
  have small := holds.pending.small
  have short := holds.short
  have memory := holds.memory
  have absorbed := holds.absorbed
  rw [fileHash, MD5_BLOCKSIZE]
  split
  case isTrue whole =>
    have split : self.tmp.take self.tmpLen =
        self.tmp.take 64 ++ (self.tmp.drop 64).take (self.tmpLen - 64) := by
      rw [← List.take_add, show 64 + (self.tmpLen - 64) = self.tmpLen by omega]
    rw [split] at absorbed
    refine ⟨absorbed.one (by rw [List.length_take]; omega), ?_, ?_⟩
    · simp only [List.length_take, List.length_drop]
      omega
    · simp only
      omega
  case isFalse less => exact ⟨absorbed, holds.stored, by simp only; omega⟩

theorem fileBlock_absorbed {state : md5.State} {tmp data : Buffer} {tmpLen : ℕ}
    (absorbed : Absorbed file state (tmp ++ data)) (length : tmp.length = tmpLen) (less : tmpLen < 64)
    (enough : 64 ≤ tmpLen + data.length) :
    Absorbed file (fileBlock state tmp tmpLen data).1 (fileBlock state tmp tmpLen data).2 := by
  rw [fileBlock, MD5_BLOCKSIZE]
  split
  case isTrue pending =>
    have split : tmp ++ data = tmp ++ data.take (64 - tmpLen) ++ data.drop (64 - tmpLen) := by
      rw [List.append_assoc, List.take_append_drop]
    rw [split] at absorbed
    refine absorbed.one ?_
    rw [List.length_append, List.length_take]
    omega
  case isFalse empty =>
    have nothing : tmp = [] := List.eq_nil_of_length_eq_zero (by omega)
    rwa [nothing, List.nil_append] at absorbed

/-- The blocks of data are its whole blocks. -/
theorem blocks_take (state : md5.State) (data : Buffer) :
    md5.blocks (data.length / 64) state data =
      md5.absorb state (data.take (data.length / 64 * 64)) := by
  have multiple : 64 ∣ (data.take (data.length / 64 * 64)).length := by
    rw [List.length_take, Nat.min_eq_left (by omega)]
    exact Nat.dvd_mul_left 64 _
  have left : (data.drop (data.length / 64 * 64)).length < 64 := by
    rw [List.length_drop]
    omega
  have whole := @MD5.absorb_append md5 state _ multiple (data.drop (data.length / 64 * 64))
  rw [List.take_append_drop, MD5.absorb_short _ left] at whole
  exact whole

/-- More bytes for the file alone. -/
theorem Holds.updateFile_holds (holds : self.Holds file block) {data : Buffer}
    (given : data.length ≠ 0) : (self.updateFile data).Holds (file ++ data) [] := by
  have lengthFile := holds.pending.lengthFile
  have small := holds.pending.small
  have short := holds.short
  have memory := holds.memory
  have total : self.dataLenFile + data.length = (file ++ data).length := by
    rw [lengthFile, List.length_append]
  rw [updateFile, if_neg given, MD5_BLOCKSIZE]
  simp only
  split
  case isTrue fits =>
    refine resetBlock_ofFile ?_ total (by simp only; omega) ?_
    · simp only
      rw [memcpy_take _ _ _ (by omega)]
      exact holds.absorbed.more data
    · simp only
      rw [memcpy_length _ _ _ (by omega), memory]
  case isFalse large =>
    obtain ⟨absorbed, length, less⟩ := holds.fileHash_absorbed
    have number : self.tmpLen ≤ self.fileHash.2.2 + 64 := by
      rw [fileHash, MD5_BLOCKSIZE]
      split
      · simp only
        omega
      · simp only
        omega
    have next := fileBlock_absorbed (absorbed.more data) length less (by omega)
    set reached := fileBlock self.fileHash.1 self.fileHash.2.1 self.fileHash.2.2 data with definition
    have same : @fileBlock md5
        (fileHash { self with dataLenFile := self.dataLenFile + data.length }).1
        (fileHash { self with dataLenFile := self.dataLenFile + data.length }).2.1
        (fileHash { self with dataLenFile := self.dataLenFile + data.length }).2.2 data = reached := rfl
    rw [same]
    obtain ⟨state, rest⟩ := reached
    simp only at next ⊢
    have parts := List.take_append_drop (rest.length / 64 * 64) rest
    have count : (rest.take (rest.length / 64 * 64)).length = rest.length / 64 * 64 := by
      rw [List.length_take]
      omega
    have left : (rest.drop (rest.length / 64 * 64)).length < 64 := by
      rw [List.length_drop]
      omega
    have multiple : 64 ∣ (rest.take (rest.length / 64 * 64)).length := by
      rw [count]
      exact Nat.dvd_mul_left 64 _
    have hashed := blocks_take state rest
    have stored := memcpy_take self.tmp (rest.drop (rest.length / 64 * 64)) 0 (Nat.zero_le _)
    rw [Nat.zero_add, List.take_zero, List.nil_append] at stored
    have file_absorbed : Absorbed (file ++ data)
        (md5.absorb state (rest.take (rest.length / 64 * 64)))
        (rest.drop (rest.length / 64 * 64)) :=
      Absorbed.blocks (by rwa [parts]) multiple
    refine ⟨⟨?_, ⟨[], by simp, ?_, rfl, rfl⟩, ?_, left, rfl, total⟩, ?_, ?_⟩
    · simp only
      rw [stored, hashed]
      exact file_absorbed
    · simp only
      rw [stored, List.drop_length, List.append_nil]
    · simp only
      rw [stored]
    · simp only
      omega
    · rw [← memory]
      exact memcpy_length _ _ _ (by omega)

/-- What is pending at the end: what the offset is from, and the rest of the slice. -/
theorem Holds.pending_length {before : Buffer} (holds : self.Holds (before ++ block) block) :
    self.tmpLen = before.length % 64 + block.length % 64 := by
  obtain ⟨consumed, ⟨count, whole⟩, split, -⟩ := holds.pending.ofFile
  obtain ⟨consumedBlock, ⟨countBlock, wholeBlock⟩, splitBlock, -⟩ := holds.pending.ofBlock
  have small := holds.pending.small
  have short := holds.short
  have stored := holds.stored
  have offset := holds.offset_le
  have lengthFile := congrArg List.length split
  have lengthBlock := congrArg List.length splitBlock
  simp only [List.length_append, List.length_drop, stored, whole, wholeBlock] at lengthFile lengthBlock
  omega

/-- The bytes that the hash of the file is taken from. -/
def hashedAtEnd (before block : Buffer) : Buffer :=
  let file := before ++ block
  let rest := file.length % 64
  if before.length % 64 + block.length % 64 < 64 then file
  else file.take (file.length - rest) ++ (file.drop (file.length - rest - 64)).take rest

/-- A pending block is processed, but the bytes from its beginning follow. -/
theorem Holds.end_eq {before : Buffer} (holds : self.Holds (before ++ block) block) :
    self.end_ = md5.bytes (md5.absorb md5.init
      (hashedAtEnd before block ++ MD5.padding (before ++ block).length)) := by
  have pending := holds.pending_length
  have memory := holds.memory
  have small := holds.pending.small
  have short := holds.short
  have stored := holds.stored
  have lengthFile := holds.pending.lengthFile
  obtain ⟨consumed, whole, split, state⟩ := holds.pending.ofFile
  have length : (before ++ block).length = consumed.length + self.tmpLen := by
    rw [split, List.length_append, stored]
  have total : (before ++ block).length % 64 = self.tmpLen % 64 := by omega
  rw [end_, MD5_BLOCKSIZE, md5_final_block_eq _ _ _ _ (by omega), hashedAtEnd, ← pending]
  simp only [List.replicate_zero, List.append_nil, Nat.add_zero, lengthFile]
  split
  case isTrue whole64 =>
    have one : (self.tmp.take 64).length = 64 := by
      rw [List.length_take]
      omega
    have count : (consumed ++ self.tmp.take 64).length = consumed.length + 64 := by
      rw [List.length_append, one]
    have processed : 64 ∣ (consumed ++ self.tmp.take 64).length := by
      rw [count]
      exact Nat.dvd_add whole (Nat.dvd_refl 64)
    have rest : (before ++ block).length - (before ++ block).length % 64 =
        (consumed ++ self.tmp.take 64).length := by omega
    have front : (before ++ block).take (consumed ++ self.tmp.take 64).length =
        consumed ++ self.tmp.take 64 := by
      rw [split, count, List.take_length_add_append, List.take_take,
        Nat.min_eq_left whole64]
    have back : ((before ++ block).drop ((consumed ++ self.tmp.take 64).length - 64)).take
        ((before ++ block).length % 64) = self.tmp.take ((before ++ block).length % 64) := by
      rw [total, count, Nat.add_sub_cancel, split, List.drop_left,
        List.take_take, Nat.min_eq_left (by omega)]
    rw [if_neg (by omega), rest, front, back, List.append_assoc, List.append_assoc,
      ← List.append_assoc consumed, MD5.absorb_append _ processed, MD5.absorb_append _ whole,
      MD5.absorb_one _ one, ← state]
  case isFalse less =>
    rw [if_pos (by omega), total, Nat.mod_eq_of_lt (by omega), state, ← MD5.absorb_append _ whole,
      ← List.append_assoc, ← split]

/-- The hash at the end is that of the file, whatever the hash is, if the bytes are. -/
theorem hashedAtEnd_eq_iff (before block : Buffer) :
    let file := before ++ block
    let rest := file.length % 64
    hashedAtEnd before block = file ↔
      before.length % 64 + block.length % 64 < 64 ∨
        (file.drop (file.length - rest - 64)).take rest = file.drop (file.length - rest) := by
  dsimp only
  rw [hashedAtEnd]
  split
  case isTrue less => exact iff_of_true rfl (Or.inl less)
  case isFalse pending =>
    have cancel := List.append_cancel_left_eq
      ((before ++ block).take ((before ++ block).length - (before ++ block).length % 64))
      (((before ++ block).drop ((before ++ block).length - (before ++ block).length % 64 - 64)).take
        ((before ++ block).length % 64))
      ((before ++ block).drop ((before ++ block).length - (before ++ block).length % 64))
    rw [List.take_append_drop] at cancel
    exact (Iff.of_eq cancel).trans (or_iff_right pending).symm

theorem hashedAtEnd_length (before block : Buffer) :
    (hashedAtEnd before block).length = (before ++ block).length := by
  rw [hashedAtEnd]
  split
  case isTrue less => rfl
  case isFalse pending =>
    simp only [List.length_append, List.length_take, List.length_drop]
    omega

end HasherInput

/-! ## The calls -/

/-- The calls on a hasher. -/
inductive HasherCall where
  | update (data : Buffer)
  | getBlock (zeroPad : ℕ)
  | resetBlock
  | updateFile (data : Buffer)

namespace HasherCall

/-- The bytes that a call gives. -/
def data : HasherCall → Buffer
  | update data => data
  | getBlock _ => []
  | resetBlock => []
  | updateFile data => data

/-- After a call, the bytes before the slice and those of the slice. Nothing ends no slice. -/
def given (bytes : Buffer × Buffer) : HasherCall → Buffer × Buffer
  | update data => (bytes.1, bytes.2 ++ data)
  | getBlock _ => (bytes.1 ++ bytes.2, [])
  | resetBlock => (bytes.1 ++ bytes.2, [])
  | updateFile data => if data.length = 0 then bytes else (bytes.1 ++ bytes.2 ++ data, [])

/-- The bytes before the last slice and those of the last slice. -/
def givenAll (calls : List HasherCall) : Buffer × Buffer := calls.foldl given ([], [])

/-- The hashes of slices that the calls ask for. -/
def hashesFrom (md5 : MD5) (bytes : Buffer × Buffer) : List HasherCall → List Buffer
  | [] => []
  | getBlock zeroPad :: rest =>
    HasherInput.digests md5 (bytes.2 ++ List.replicate zeroPad 0) ::
      hashesFrom md5 (given bytes (getBlock zeroPad)) rest
  | call :: rest => hashesFrom md5 (given bytes call) rest

def hashes (md5 : MD5) (calls : List HasherCall) : List Buffer := hashesFrom md5 ([], []) calls

variable {md5 : MD5}

/-- The hasher after a call, and what the call returned. -/
def step (hasher : HasherInput md5) : HasherCall → HasherInput md5 × List Buffer
  | update data => (hasher.update data, [])
  | getBlock zeroPad => ((hasher.getBlock zeroPad).2, [(hasher.getBlock zeroPad).1])
  | resetBlock => (hasher.resetBlock, [])
  | updateFile data => (hasher.updateFile data, [])

/-- The hasher after the calls, and all that they returned. -/
def run (hasher : HasherInput md5) : List HasherCall → HasherInput md5 × List Buffer
  | [] => (hasher, [])
  | call :: rest =>
    let (hasher, hashes) := step hasher call
    let (last, more) := run hasher rest
    (last, hashes ++ more)

/-- A call gives its bytes to the file. -/
theorem given_append (bytes : Buffer × Buffer) (call : HasherCall) :
    (given bytes call).1 ++ (given bytes call).2 = bytes.1 ++ bytes.2 ++ call.data := by
  cases call with
  | update data => exact (List.append_assoc _ _ _).symm
  | getBlock zeroPad => rfl
  | resetBlock => rfl
  | updateFile data =>
    rw [given]
    split
    case isTrue empty =>
      rw [HasherCall.data, List.eq_nil_of_length_eq_zero empty, List.append_nil]
    case isFalse some => exact List.append_nil _

theorem foldl_given_append (bytes : Buffer × Buffer) (calls : List HasherCall) :
    (calls.foldl given bytes).1 ++ (calls.foldl given bytes).2 =
      bytes.1 ++ bytes.2 ++ calls.flatMap data := by
  induction calls generalizing bytes with
  | nil => exact (List.append_nil _).symm
  | cons call rest ih =>
    rw [List.foldl_cons, ih, given_append, List.flatMap_cons, List.append_assoc _ call.data]

theorem givenAll_append (calls : List HasherCall) :
    (givenAll calls).1 ++ (givenAll calls).2 = calls.flatMap data :=
  foldl_given_append ([], []) calls

/-- One call keeps what the hasher was given. -/
theorem step_holds {hasher : HasherInput md5} {bytes : Buffer × Buffer}
    (holds : hasher.Holds (bytes.1 ++ bytes.2) bytes.2) (call : HasherCall) :
    (step hasher call).1.Holds ((given bytes call).1 ++ (given bytes call).2) (given bytes call).2 := by
  rw [given_append]
  cases call with
  | update data => exact holds.update_holds data
  | getBlock zeroPad =>
    rw [data, List.append_nil]
    exact holds.getBlock_holds zeroPad
  | resetBlock =>
    rw [data, List.append_nil]
    exact holds.resetBlock_holds
  | updateFile data =>
    rw [step, given, HasherCall.data]
    split
    case isTrue empty =>
      rw [HasherInput.updateFile, if_pos empty, List.eq_nil_of_length_eq_zero empty, List.append_nil]
      exact holds
    case isFalse some => exact holds.updateFile_holds some

/-- All calls keep it, and the hashes of slices are those that are asked for. -/
theorem run_holds {hasher : HasherInput md5} {bytes : Buffer × Buffer}
    (holds : hasher.Holds (bytes.1 ++ bytes.2) bytes.2) (calls : List HasherCall) :
    (run hasher calls).1.Holds ((calls.foldl given bytes).1 ++ (calls.foldl given bytes).2)
        (calls.foldl given bytes).2 ∧
      (run hasher calls).2 = hashesFrom md5 bytes calls := by
  induction calls generalizing hasher bytes with
  | nil => exact ⟨holds, rfl⟩
  | cons call rest ih =>
    obtain ⟨last, more⟩ := ih (step_holds holds call)
    refine ⟨last, ?_⟩
    have returned : (run hasher (call :: rest)).2 =
        (step hasher call).2 ++ (run (step hasher call).1 rest).2 := rfl
    rw [returned, more]
    cases call with
    | update data => rfl
    | getBlock zeroPad =>
      rw [step, holds.getBlock_digests]
      rfl
    | resetBlock => rfl
    | updateFile data => rfl

theorem run_end {memory : Buffer} (length : memory.length = 128) (calls : List HasherCall) :
    (run (HasherInput.reset md5 memory) calls).2 = hashes md5 calls ∧
      (run (HasherInput.reset md5 memory) calls).1.end_ = md5.bytes (md5.absorb md5.init
        (HasherInput.hashedAtEnd (givenAll calls).1 (givenAll calls).2 ++
          MD5.padding (calls.flatMap data).length)) := by
  obtain ⟨holds, returned⟩ := @run_holds md5 _ ([], []) (HasherInput.reset_holds memory length) calls
  refine ⟨returned, ?_⟩
  rw [← givenAll_append]
  exact holds.end_eq

end HasherCall

/-! ## A hash that tells the data -/

namespace MD5

/-- The blocks are kept, and the hash tells whether they are the wanted bytes. -/
def collected (wanted : Buffer) : MD5 where
  State := List Buffer
  init := []
  process_block state block := state ++ [block]
  bytes state := List.replicate 16 (if state.flatten = wanted then 1 else 0)
  bytes_length _ := List.length_replicate

theorem collected_blocks (wanted : Buffer) (count : ℕ) (state : List Buffer) (data : Buffer) :
    ((collected wanted).blocks count state data : List Buffer).flatten =
      state.flatten ++ data.take (count * 64) := by
  induction count generalizing state data with
  | zero => simp [blocks]
  | succ count ih =>
    have more : (count + 1) * 64 = 64 + count * 64 := by ring
    have first : (collected wanted).blocks (count + 1) state data =
        (collected wanted).blocks count (state ++ [data.take 64]) (data.drop 64) := rfl
    rw [first, ih, more, List.take_add, List.flatten_append, List.flatten_singleton,
      List.append_assoc]

theorem collected_absorb (wanted : Buffer) {data : Buffer} (whole : 64 ∣ data.length) :
    (collected wanted).bytes ((collected wanted).absorb (collected wanted).init data) =
      List.replicate 16 (if data = wanted then 1 else 0) := by
  have all : data.length / 64 * 64 = data.length := Nat.div_mul_cancel whole
  have flat := collected_blocks wanted (data.length / 64) [] data
  rw [all, List.take_length, List.flatten_nil, List.nil_append] at flat
  have told : (collected wanted).bytes ((collected wanted).absorb (collected wanted).init data) =
      List.replicate 16 (if ((collected wanted).blocks (data.length / 64) [] data :
        List Buffer).flatten = wanted then 1 else 0) := rfl
  rw [told, flat]

theorem padding_whole {data : Buffer} {length : ℕ} (same : data.length = length) :
    64 ∣ (data ++ padding length).length := by
  simp only [padding, List.length_append, List.length_cons, List.length_replicate,
    toLittleEndian_length]
  omega

/-- Data with the hash of other data under any block function is that data. -/
theorem hash_injective {data other : Buffer} (length : other.length = data.length)
    (same : ∀ md5 : MD5, md5.bytes (md5.absorb md5.init (other ++ padding data.length)) = md5.hash data) :
    other = data := by
  have told := same (collected (data ++ padding data.length))
  rw [hash, collected_absorb _ (padding_whole length), collected_absorb _ (padding_whole rfl),
    if_pos rfl] at told
  by_contra different
  rw [if_neg (fun equal => different (List.append_cancel_right equal))] at told
  exact absurd told (by decide)

end MD5

end Par3
