import Par3.FinishedBlocks

/-!
# Packing and unpacking a slice

What packing writes into the slots of an input is what unpacking reads from them, so an input comes
back with zeros behind it. A slice that is processed in parts is written like one that is processed
at once.
-/
namespace Par3

/-- The finish of a block inverts its prepare. A block that is not whole is padded when it is
prepared, and cut when it is finished; a block of zeros stays one. -/
structure BlockTransform.Inverts (transform : BlockTransform) (blockLen : ℕ) : Prop where
  finish_prepare : ∀ block : Buffer, block.length = blockLen →
    transform.finishBlock (transform.prepareBlock block) = block
  prepare_rest : ∀ rest : Buffer, rest.length < blockLen → transform.prepareBlockU rest =
    transform.prepareBlock (rest ++ List.replicate (blockLen - rest.length) 0)
  finish_rest : ∀ (packed : Buffer) (remaining : ℕ), remaining < blockLen →
    transform.finishBlockU packed remaining = (transform.finishBlock packed).take remaining
  prepare_zeros : transform.prepareBlock (List.replicate blockLen 0) = List.replicate blockLen 0

namespace PackedGeometry

variable (geom : PackedGeometry) (transform : BlockTransform) (check : ChecksumTransform)

/-! ## Parts -/

/-- Parts of so many blocks, before the part that ends with the bytes, end before it. -/
def Cuts (bytes start : ℕ) (counts : List ℕ) : Prop :=
  counts ≠ [] → geom.blockLen * (start + counts.sum) < bytes

/-- Pack an input in parts of so many blocks, and a last part. -/
def prepareParts (src : Buffer) (inputNum : ℕ) : ℕ → List ℕ → PackedBuffer → Buffer →
    PackedBuffer × Buffer
  | start, [], dst, checksum =>
    geom.gf16_prepare_packed transform check src inputNum dst (geom.blockLen * start)
      (src.length - geom.blockLen * start) checksum
  | start, count :: rest, dst, checksum =>
    let part := geom.gf16_prepare_packed transform check src inputNum dst
      (geom.blockLen * start) (geom.blockLen * count) checksum
    prepareParts src inputNum (start + count) rest part.1 part.2

/-- Unpack an output in parts of so many blocks, and a last part. -/
def finishParts (outputNum : ℕ) : ℕ → List ℕ → PackedBuffer → ByteMemory →
    ByteMemory × PackedBuffer × Bool
  | start, [], src, dst =>
    geom.gf16_finish_packed transform check src outputNum dst (geom.blockLen * start)
      (geom.sliceLen - geom.blockLen * start)
  | start, count :: rest, src, dst =>
    let part := geom.gf16_finish_packed transform check src outputNum dst
      (geom.blockLen * start) (geom.blockLen * count)
    finishParts outputNum (start + count) rest part.2.1 part.1

section Parts

variable {geom}

theorem Cuts.next {bytes start count : ℕ} {rest : List ℕ}
    (cuts : geom.Cuts bytes start (count :: rest)) :
    geom.blockLen * (start + count) < bytes ∧ geom.Cuts bytes (start + count) rest := by
  have all := cuts (List.cons_ne_nil count rest)
  rw [List.sum_cons, ← Nat.add_assoc] at all
  constructor
  · apply lt_of_le_of_lt _ all
    exact Nat.mul_le_mul_left _ (Nat.le_add_right _ _)
  · intro _
    exact all

/-- Packing in parts is packing at once. -/
theorem prepareParts_eq (valid : geom.Valid) (src : Buffer) (inputNum : ℕ)
    (fits : src.length ≤ geom.sliceLen) {start : ℕ} {counts : List ℕ}
    (ordered : geom.blockLen * start ≤ src.length)
    (cuts : geom.Cuts src.length start counts) (dst : PackedBuffer) (checksum : Buffer) :
    geom.prepareParts transform check src inputNum start counts dst checksum =
      geom.gf16_prepare_packed transform check src inputNum dst (geom.blockLen * start)
        (src.length - geom.blockLen * start) checksum := by
  induction counts generalizing start dst checksum with
  | nil => rfl
  | cons count rest ih =>
    obtain ⟨before, next⟩ := cuts.next
    have data := (dataBlock_iff src valid (start + count)).mp before
    have blocks := srcBlocks_le src valid fits
    rw [prepareParts, prepare_part transform check src inputNum valid fits dst start count before,
      ih before.le next,
      prepare_rest transform check src inputNum valid fits _ (start + count) _ (by omega),
      prepare_rest transform check src inputNum valid fits _ start _ (by omega),
      writeBlocks_append transform src inputNum (Nat.le_add_right start count) (by omega),
      checkBlocks_append check src (Nat.le_add_right start count) data.le]

/-- Unpacking looks at the blocks of its output only. -/
theorem unpackBlocks_congr {first second : PackedBuffer} (outputNum start stop : ℕ)
    (same : ∀ block < stop, first (geom.aligned.slot outputNum block) =
      second (geom.aligned.slot outputNum block)) (dst : ByteMemory) :
    geom.unpackBlocks transform first outputNum start stop dst =
      geom.unpackBlocks transform second outputNum start stop dst := by
  apply List.foldl_ext
  intro dst block member
  rw [List.mem_range'_1] at member
  rw [unpackedBlock, unpackedBlock, same block (by omega)]

theorem checkOutputs_congr {first second : PackedBuffer} (outputNum start stop : ℕ)
    (same : ∀ block < stop, first (geom.aligned.slot outputNum block) =
      second (geom.aligned.slot outputNum block)) (checksum : Buffer) :
    geom.checkOutputs transform check first outputNum start stop checksum =
      geom.checkOutputs transform check second outputNum start stop checksum := by
  apply List.foldl_ext
  intro checksum block member
  rw [List.mem_range'_1] at member
  rw [checkOutput, checkOutput, unpackedBlock, unpackedBlock, same block (by omega)]

theorem unpackBlocks_append (src : PackedBuffer) (outputNum : ℕ) {start middle stop : ℕ}
    (first : start ≤ middle) (second : middle ≤ stop) (dst : ByteMemory) :
    geom.unpackBlocks transform src outputNum middle stop
        (geom.unpackBlocks transform src outputNum start middle dst) =
      geom.unpackBlocks transform src outputNum start stop dst := by
  simp only [unpackBlocks, FallibleLoops.range_split first second, List.foldl_append]

theorem checkOutputs_append (src : PackedBuffer) (outputNum : ℕ) {start middle stop : ℕ}
    (first : start ≤ middle) (second : middle ≤ stop) (checksum : Buffer) :
    geom.checkOutputs transform check src outputNum middle stop
        (geom.checkOutputs transform check src outputNum start middle checksum) =
      geom.checkOutputs transform check src outputNum start stop checksum := by
  simp only [checkOutputs, FallibleLoops.range_split first second, List.foldl_append]

/-- The checksum of an input is in none of its other blocks. -/
theorem checksum_apart (valid : geom.Valid) (kept : geom.hasChecksum = true) {inputNum : ℕ}
    (input : inputNum < geom.inputPackSize) {block : ℕ} (inside : block < geom.sliceBlocks) :
    geom.slot inputNum block ≠ geom.gf16_checksum_ptr inputNum := by
  have blocks := inputBlocks_eq valid.blocked
  rw [kept, if_pos rfl] at blocks
  rw [gf16_checksum_ptr_eq valid kept]
  intro same
  have meet := (slot_injective valid.blocked input input (by omega) (by omega) same).2
  omega

/-- A part that ends before the slice leaves the blocks that are unpacked as they are. -/
theorem part_keeps (valid : geom.aligned.Valid) {outputNum : ℕ}
    (output : outputNum < geom.inputPackSize) (src : PackedBuffer) (checksum : Buffer)
    {block : ℕ} (inside : block < geom.aligned.sliceBlocks) :
    (if geom.hasChecksum then
        Function.update src (geom.aligned.gf16_checksum_ptr outputNum) checksum
      else src) (geom.aligned.slot outputNum block) =
      src (geom.aligned.slot outputNum block) := by
  split
  case isTrue kept =>
    exact Function.update_of_ne (checksum_apart valid kept output inside) _ _
  case isFalse => rfl

/-- A part that ends before the slice ends with one of its blocks. -/
theorem part_inside (valid : geom.aligned.Valid) {block : ℕ}
    (before : geom.blockLen * block < geom.sliceLen) :
    block < geom.aligned.sliceBlocks := by
  by_contra far
  have whole := Nat.mul_le_mul_left geom.blockLen (not_lt.mp far)
  have slice := aligned_slice valid
  have pos : 0 < geom.blockLen := valid.block_pos
  have rest := Nat.mod_lt (geom.sliceLen + geom.blockLen - 1) pos
  have up : geom.sliceLen ≤ geom.aligned.sliceLen := by
    simp only [aligned]
    omega
  omega

/-- Unpacking in parts writes what unpacking at once does. -/
theorem finishParts_output (valid : geom.aligned.Valid) {outputNum : ℕ}
    (output : outputNum < geom.inputPackSize) {start : ℕ} {counts : List ℕ}
    (ordered : geom.blockLen * start ≤ geom.sliceLen)
    (cuts : geom.Cuts geom.sliceLen start counts) (src : PackedBuffer) (dst : ByteMemory) :
    (geom.finishParts transform check outputNum start counts src dst).1 =
      geom.unpackBlocks transform src outputNum start geom.aligned.sliceBlocks dst := by
  induction counts generalizing start src dst with
  | nil =>
    rw [finishParts, finish_rest transform check src outputNum valid dst start _ (by omega)]
  | cons count rest ih =>
    obtain ⟨before, next⟩ := cuts.next
    have inside := part_inside valid before
    rw [finishParts, finish_part transform check src outputNum valid dst start count before,
      ih before.le next, unpackBlocks_congr transform outputNum _ _
        (fun block room => part_keeps valid output src _ room),
      unpackBlocks_append transform src outputNum (Nat.le_add_right start count) inside.le]

/-- Unpacking in parts that are not empty checks what unpacking at once does. -/
theorem finishParts_checks (valid : geom.aligned.Valid) {outputNum : ℕ}
    (output : outputNum < geom.inputPackSize) {start : ℕ} {counts : List ℕ}
    (ordered : geom.blockLen * start ≤ geom.sliceLen)
    (cuts : geom.Cuts geom.sliceLen start counts) (some : ∀ count ∈ counts, 0 < count)
    (src : PackedBuffer) (dst : ByteMemory) :
    (geom.finishParts transform check outputNum start counts src dst).2.2 =
      if geom.hasChecksum then
        (checkedTo transform check src outputNum geom start geom.aligned.sliceBlocks).all
          fun byte => byte = 0
      else true := by
  induction counts generalizing start src dst with
  | nil =>
    rw [finishParts, finish_rest transform check src outputNum valid dst start _ (by omega)]
  | cons count rest ih =>
    obtain ⟨before, next⟩ := cuts.next
    have inside := part_inside valid before
    have pos : 0 < geom.blockLen * (start + count) := by
      have one := some count List.mem_cons_self
      have block : 0 < geom.blockLen := valid.block_pos
      exact Nat.mul_pos block (by omega)
    rw [finishParts, finish_part transform check src outputNum valid dst start count before,
      ih before.le next fun count member => some count (List.mem_cons_of_mem _ member)]
    cases kept : geom.hasChecksum with
    | false => rfl
    | true =>
      simp only [if_true]
      congr 1
      have keeps := fun block (room : block < geom.aligned.sliceBlocks) => part_keeps valid output
        src (checkedTo transform check src outputNum geom start (start + count)) room
      simp only [kept, if_true] at keeps
      rw [checkedTo, checkOutputs_congr transform check outputNum _ _ keeps, kept, if_pos rfl,
        rewound, if_neg pos.ne', Function.update_self, checkedTo,
        checkOutputs_append transform check src outputNum (Nat.le_add_right start count) inside.le]
      rfl

end Parts

/-! ## Contents -/

section Contents

variable {geom}

/-- Packing writes the blocks it covers. -/
theorem writeBlocks_slot (valid : geom.Valid) (src : Buffer) {inputNum : ℕ}
    (input : inputNum < geom.inputPackSize) {start stop block : ℕ} (first : start ≤ block)
    (last : block < stop) (inside : stop ≤ geom.inputBlocks) (dst : PackedBuffer) :
    geom.writeBlocks transform src inputNum start stop dst (geom.slot inputNum block) =
      geom.packedBlock transform src block := by
  have later (dst : PackedBuffer) (count : ℕ) (room : block + 1 + count ≤ stop) :
      ((List.range' (block + 1) count).foldl
        (fun dst block => Function.update dst (geom.slot inputNum block)
          (geom.packedBlock transform src block)) dst) (geom.slot inputNum block) =
        dst (geom.slot inputNum block) := by
    induction count with
    | zero => rfl
    | succ count ih =>
      rw [List.range'_concat, List.foldl_append, List.foldl_cons, List.foldl_nil, Function.update_of_ne,
        ih (by omega)]
      intro same
      have meet := (slot_injective valid.blocked input input (by omega) (by omega) same).2
      omega
  have next : stop - block = stop - (block + 1) + 1 := by omega
  rw [← writeBlocks_append transform src inputNum first last.le]
  conv_lhs => rw [writeBlocks, next, List.range'_succ, List.foldl_cons]
  rw [later _ _ (by omega), Function.update_self]

/-- Packing changes nothing but the blocks it covers. -/
theorem writeBlocks_other (src : Buffer) (inputNum : ℕ) {start stop address : ℕ}
    (other : ∀ block, start ≤ block → block < stop → address ≠ geom.slot inputNum block)
    (dst : PackedBuffer) :
    geom.writeBlocks transform src inputNum start stop dst address = dst address := by
  simp only [writeBlocks]
  generalize turns : stop - start = count
  induction count generalizing start dst with
  | zero => rfl
  | succ count ih =>
    rw [List.range'_succ, List.foldl_cons, ih _ _ (by omega), Function.update_of_ne]
    · exact other start le_rfl (by omega)
    · intro block first last
      exact other block (by omega) last

/-- Bytes are read where they were written, and the memory elsewhere. -/
theorem writeBytes_eq (dst : ByteMemory) (offset address : ℕ) (bytes : Buffer) :
    writeBytes dst offset bytes address =
      if offset ≤ address ∧ address < offset + bytes.length then
        bytes.getD (address - offset) 0
      else dst address := by
  rw [writeBytes]
  by_cases first : offset ≤ address
  · by_cases last : address < offset + bytes.length
    · have inside : address - offset < bytes.length := by omega
      rw [if_pos first, if_pos ⟨first, last⟩, List.getD_eq_getElem?_getD,
        List.getElem?_eq_getElem inside]
      rfl
    · have outside : bytes.length ≤ address - offset := by omega
      rw [if_pos first, if_neg fun both => last both.2, List.getElem?_eq_none outside]
      rfl
  · rw [if_neg first, if_neg fun both => first both.1]

/-- Blocks that are written one behind the other are read as one run of bytes. -/
theorem unpackBlocks_read (src : PackedBuffer) (outputNum : ℕ) (bytes : ℕ → UInt8)
    (pos : 0 < geom.blockLen) (count : ℕ)
    (length : ∀ block < count, (geom.unpackedBlock transform src outputNum block).length =
      min geom.blockLen (geom.sliceLen - geom.blockLen * block))
    (contents : ∀ block < count, ∀ position < min geom.blockLen
      (geom.sliceLen - geom.blockLen * block),
      (geom.unpackedBlock transform src outputNum block).getD position 0 =
        bytes (geom.blockLen * block + position))
    (dst : ByteMemory) (address : ℕ) :
    geom.unpackBlocks transform src outputNum 0 count dst address =
      if address < min (geom.blockLen * count) geom.sliceLen then bytes address
      else dst address := by
  induction count generalizing address with
  | zero => simp [unpackBlocks]
  | succ count ih =>
    have one : count + 1 - count = 1 := by omega
    have before := ih (fun block room => length block (by omega))
      (fun block room => contents block (by omega)) address
    rw [← unpackBlocks_append transform src outputNum (Nat.zero_le count) (Nat.le_succ count)]
    conv_lhs => rw [unpackBlocks, Nat.succ_eq_add_one, one, List.range'_one, List.foldl_cons,
      List.foldl_nil, writeBytes_eq, length count (Nat.lt_succ_self count)]
    rw [before, Nat.mul_succ]
    by_cases own : geom.blockLen * count ≤ address ∧ address < geom.blockLen * count +
        min geom.blockLen (geom.sliceLen - geom.blockLen * count)
    · have position : geom.blockLen * count + (address - geom.blockLen * count) =
          address := by omega
      rw [if_pos own, if_pos (by omega), contents count (Nat.lt_succ_self count) _ (by omega), position]
    · rw [if_neg own]
      congr 1
      apply propext
      omega

/-- A block of an input, with zeros behind the input. -/
def paddedBlock (geom : PackedGeometry) (src : Buffer) (block : ℕ) : Buffer :=
  geom.srcBlock src block ++
    List.replicate (geom.blockLen - (geom.srcBlock src block).length) 0

theorem srcBlock_length (src : Buffer) (block : ℕ) :
    (geom.srcBlock src block).length =
      min geom.blockLen (src.length - geom.blockLen * block) := by
  rw [srcBlock, slice, List.length_take, List.length_drop, Nat.add_sub_cancel_left]

theorem paddedBlock_length (src : Buffer) (block : ℕ) :
    (geom.paddedBlock src block).length = geom.blockLen := by
  have length := @srcBlock_length geom src block
  rw [paddedBlock, List.length_append, List.length_replicate]
  omega

/-- The bytes of a padded block are those of the input, and zeros. -/
theorem paddedBlock_getD (src : Buffer) (block : ℕ) {position : ℕ}
    (inside : position < geom.blockLen) :
    (geom.paddedBlock src block).getD position 0 =
      src.getD (geom.blockLen * block + position) 0 := by
  have length := @srcBlock_length geom src block
  simp only [paddedBlock, List.getD_eq_getElem?_getD]
  by_cases own : position < (geom.srcBlock src block).length
  · rw [List.getElem?_append_left own, srcBlock, slice, Nat.add_sub_cancel_left,
      List.getElem?_take_of_lt inside, List.getElem?_drop]
  · have behind : src.length ≤ geom.blockLen * block + position := by omega
    rw [List.getElem?_append_right (not_lt.mp own), List.getElem?_eq_none behind,
      List.getElem?_replicate]
    split
    · rfl
    · rfl

/-- What packing writes is a padded block that has been prepared. -/
theorem packedBlock_eq (inverts : transform.Inverts geom.blockLen) (src : Buffer) (block : ℕ) :
    geom.packedBlock transform src block =
      transform.prepareBlock (geom.paddedBlock src block) := by
  have length := @srcBlock_length geom src block
  rw [packedBlock, paddedBlock]
  by_cases full : geom.FullBlock src block
  · rw [if_pos full]
    rw [FullBlock, Nat.mul_succ] at full
    have none : geom.blockLen - (geom.srcBlock src block).length = 0 := by omega
    rw [none, List.replicate_zero, List.append_nil]
  · rw [if_neg full]
    rw [FullBlock, Nat.mul_succ] at full
    by_cases data : geom.DataBlock src block
    · rw [if_pos data]
      rw [DataBlock] at data
      exact inverts.prepare_rest _ (by omega)
    · rw [if_neg data]
      rw [DataBlock] at data
      have none : geom.srcBlock src block = [] := List.eq_nil_of_length_eq_zero (by omega)
      rw [none, List.nil_append, List.length_nil, Nat.sub_zero, inverts.prepare_zeros]

/-- An output whose slots hold a packed input is that input, with zeros behind it. -/
theorem unpackBlocks_packed (valid : geom.aligned.Valid)
    (inverts : transform.Inverts geom.blockLen) (src : Buffer) (outputNum : ℕ)
    (packed : PackedBuffer)
    (holds : ∀ block < geom.aligned.sliceBlocks, packed (geom.aligned.slot outputNum block) =
      transform.prepareBlock (geom.paddedBlock src block))
    (dst : ByteMemory) (address : ℕ) :
    geom.unpackBlocks transform packed outputNum 0 geom.aligned.sliceBlocks dst address =
      if address < geom.sliceLen then src.getD address 0 else dst address := by
  have pos : 0 < geom.blockLen := valid.block_pos
  have up : geom.sliceLen ≤ geom.blockLen * geom.aligned.sliceBlocks := by
    by_contra short
    exact lt_irrefl _ (part_inside valid (not_le.mp short))
  have block_eq : ∀ block < geom.aligned.sliceBlocks,
      geom.unpackedBlock transform packed outputNum block =
        (geom.paddedBlock src block).take (geom.sliceLen - geom.blockLen * block) := by
    intro block inside
    have length := @paddedBlock_length geom src block
    simp only [unpackedBlock, holds block inside]
    split
    case isTrue whole =>
      rw [Nat.mul_succ] at whole
      rw [inverts.finish_prepare _ length, List.take_of_length_le (by omega)]
    case isFalse cut =>
      rw [Nat.mul_succ] at cut
      rw [inverts.finish_rest _ _ (by omega), inverts.finish_prepare _ length]
  rw [unpackBlocks_read transform packed outputNum (fun address => src.getD address 0) pos,
    Nat.min_eq_right up]
  · intro block inside
    rw [block_eq block inside, List.length_take, paddedBlock_length, Nat.min_comm]
  · intro block inside position room
    rw [block_eq block inside, List.getD_eq_getElem?_getD, List.getElem?_take_of_lt (by omega),
      ← List.getD_eq_getElem?_getD, paddedBlock_getD src block (by omega)]

end Contents

/-! ## Round trips -/

/-- The slots lie inside the packed buffer, and no two blocks share one. -/
structure SlotsApart : Prop where
  inside : ∀ inputNum < geom.inputPackSize, ∀ block < geom.inputBlocks,
    geom.slot inputNum block + geom.blockLen ≤
      geom.inputPackSize * geom.effectiveSliceLen
  apart : ∀ first < geom.inputPackSize, ∀ second < geom.inputPackSize,
    ∀ one < geom.inputBlocks, ∀ other < geom.inputBlocks,
      geom.slot first one = geom.slot second other → first = second ∧ one = other

/-- What packing an input leaves behind, and what unpacking it gives back. -/
structure PacksInput (src : Buffer) (inputNum : ℕ) (dst : PackedBuffer) (checksum : Buffer)
    (packed : PackedBuffer × Buffer) : Prop where
  written : ∀ block < geom.aligned.sliceBlocks,
    packed.1 (geom.aligned.slot inputNum block) =
      transform.prepareBlock (geom.paddedBlock src block)
  cleared : ∀ block < geom.aligned.sliceBlocks, src.length ≤ geom.blockLen * block →
    packed.1 (geom.aligned.slot inputNum block) = List.replicate geom.blockLen 0
  elsewhere : ∀ address,
    (∀ block < geom.aligned.inputBlocks, address ≠ geom.aligned.slot inputNum block) →
      packed.1 address = dst address
  readBack : ∀ (output : ByteMemory) (address : ℕ),
    (geom.gf16_finish_packed transform check packed.1 inputNum output 0 geom.sliceLen).1
        address =
      if address < geom.sliceLen then src.getD address 0 else output address
  inParts : ∀ counts, geom.Cuts src.length 0 counts →
    geom.aligned.prepareParts transform check src inputNum 0 counts dst checksum = packed

/-- Sizes are positive and chunks can be counted in 32 bits: every input is packed into slots of its
own and unpacked as it was, and both may be done in parts. -/
theorem packing_round_trips (valid : geom.aligned.Valid)
    (inverts : transform.Inverts geom.blockLen) :
    geom.aligned.SlotsApart ∧
      (∀ (src : Buffer) (inputNum : ℕ) (dst : PackedBuffer) (checksum : Buffer),
        src.length ≤ geom.aligned.sliceLen → inputNum < geom.inputPackSize →
        geom.PacksInput transform check src inputNum dst checksum
          (geom.aligned.gf16_prepare_packed transform check src inputNum dst 0 src.length
            checksum)) ∧
      ∀ (packed : PackedBuffer) (outputNum : ℕ) (output : ByteMemory) (counts : List ℕ),
        outputNum < geom.inputPackSize → geom.Cuts geom.sliceLen 0 counts →
        (geom.finishParts transform check outputNum 0 counts packed output).1 =
          (geom.gf16_finish_packed transform check packed outputNum output 0
            geom.sliceLen).1 := by
  have atOnce (packed : PackedBuffer) (outputNum : ℕ) (output : ByteMemory) :
      (geom.gf16_finish_packed transform check packed outputNum output 0 geom.sliceLen).1 =
        geom.unpackBlocks transform packed outputNum 0 geom.aligned.sliceBlocks output := by
    have rest := finish_rest transform check packed outputNum valid output 0 geom.sliceLen
      (by rw [Nat.mul_zero, Nat.zero_add])
    rw [Nat.mul_zero] at rest
    rw [rest]
  refine ⟨⟨?_, ?_⟩, ?_, ?_⟩
  · intro inputNum input block inside
    exact slot_inside valid.blocked input inside
  · intro first firstInput second secondInput one oneInside other otherInside same
    exact slot_injective valid.blocked firstInput secondInput oneInside otherInside same
  · intro src inputNum dst checksum fits input
    have prepared := prepare_rest transform check src inputNum valid fits dst 0 src.length
      (by rw [Nat.mul_zero, Nat.zero_add]) checksum
    rw [Nat.mul_zero] at prepared
    have blocks := inputBlocks_eq valid.blocked
    have slices : geom.aligned.sliceBlocks ≤ geom.aligned.inputBlocks := by omega
    have written : ∀ block < geom.aligned.sliceBlocks,
        (geom.aligned.gf16_prepare_packed transform check src inputNum dst 0 src.length
          checksum).1 (geom.aligned.slot inputNum block) =
          transform.prepareBlock (geom.paddedBlock src block) := by
      intro block inside
      have own := writeBlocks_slot transform valid src input (Nat.zero_le block) inside slices dst
      rw [prepared]
      simp only []
      split
      case isTrue kept =>
        rw [Function.update_of_ne (checksum_apart valid kept input inside), own]
        exact packedBlock_eq transform inverts src block
      case isFalse =>
        rw [own]
        exact packedBlock_eq transform inverts src block
    constructor
    · exact written
    · intro block inside behind
      have none : geom.srcBlock src block = [] := by
        apply List.eq_nil_of_length_eq_zero
        rw [srcBlock_length]
        omega
      rw [written block inside, paddedBlock, none, List.nil_append, List.length_nil, Nat.sub_zero,
        inverts.prepare_zeros]
    · intro address other
      rw [prepared]
      have same : geom.aligned.writeBlocks transform src inputNum 0
          geom.aligned.sliceBlocks dst address = dst address :=
        writeBlocks_other transform src inputNum (fun block _ inside => other block (by omega)) dst
      simp only []
      split
      case isTrue kept =>
        have last : geom.aligned.sliceBlocks < geom.aligned.inputBlocks := by
          rw [kept, if_pos rfl] at blocks
          omega
        rw [Function.update_of_ne, same]
        rw [gf16_checksum_ptr_eq valid kept]
        exact other _ last
      case isFalse => exact same
    · intro output address
      rw [atOnce]
      exact unpackBlocks_packed transform valid inverts src inputNum _ written output address
    · intro counts cuts
      have first : geom.aligned.blockLen * 0 ≤ src.length := by
        rw [Nat.mul_zero]
        exact Nat.zero_le _
      have parts := prepareParts_eq transform check valid src inputNum fits first cuts dst checksum
      rw [Nat.mul_zero, Nat.sub_zero] at parts
      exact parts
  · intro packed outputNum output counts inside cuts
    have first : geom.blockLen * 0 ≤ geom.sliceLen := by
      rw [Nat.mul_zero]
      exact Nat.zero_le _
    rw [atOnce, finishParts_output transform check valid inside first cuts]

end PackedGeometry

/-! ## The lookup kernel -/

/-- The size of a block of the lookup kernel, on a machine with words of eight bytes. -/
def gf16_lookup_stride : ℕ := 8

/-- The lookup kernel copies blocks as they are. -/
def lookupTransform : BlockTransform where
  prepareBlock block := block
  prepareBlockU rest := rest ++ List.replicate (gf16_lookup_stride - rest.length) 0
  finishBlock packed := packed
  finishBlockU packed remaining := packed.take remaining

theorem lookupTransform_inverts : lookupTransform.Inverts gf16_lookup_stride where
  finish_prepare _ _ := rfl
  prepare_rest _ _ := rfl
  finish_rest _ _ _ := rfl
  prepare_zeros := rfl

/-- No checksum is kept. -/
def noChecksum : ChecksumTransform where
  checksumBlock _ checksum := checksum
  checksumBlockU _ checksum := checksum
  checksumExp checksum _ := checksum
  prepareChecksum checksum := checksum
  inlineFinishBlock checksum := checksum

/-- Two inputs of two blocks and a checksum, in chunks of one block. -/
def smallSlice : PackedGeometry := ⟨16, gf16_lookup_stride, 2, 8, 1, true⟩

theorem smallSlice_valid : smallSlice.aligned.Valid where
  chunk_fits := by decide
  chunk_aligned := by decide
  slice_aligned := by decide
  block_pos := by decide
  interleave_pos := by decide
  chunk_pos := by decide
  slice_pos := by decide
  slice_small := by decide
  chunks_small := by decide

theorem smallSlice_round_trips :
    smallSlice.aligned.SlotsApart ∧
      smallSlice.PacksInput lookupTransform noChecksum [1, 2, 3] 1 (fun _ => []) []
        (smallSlice.aligned.gf16_prepare_packed lookupTransform noChecksum [1, 2, 3] 1 (fun _ => []) 0
          3 []) := by
  obtain ⟨apart, packs, -⟩ := PackedGeometry.packing_round_trips smallSlice lookupTransform noChecksum
    smallSlice_valid lookupTransform_inverts
  exact ⟨apart, packs [1, 2, 3] 1 (fun _ => []) [] (by decide) (by decide)⟩

/-- A slice of `2 ^ 32` chunks. -/
def hugeSlice : PackedGeometry := ⟨2 ^ 35, gf16_lookup_stride, 1, 8, 1, false⟩

/-- The count of its chunks is zero in 32 bits, and an input of no bytes is not cleared. -/
theorem hugeSlice_not_cleared :
    hugeSlice.Asserted ∧ lookupTransform.Inverts hugeSlice.blockLen ∧
      (hugeSlice.gf16_prepare_packed lookupTransform noChecksum [] 0 (fun _ => [1]) 0 0 []).1
          (hugeSlice.slot 0 0) ≠
        List.replicate hugeSlice.blockLen 0 := by
  refine ⟨⟨by decide, by decide, by decide⟩, lookupTransform_inverts, ?_⟩
  decide

end Par3
