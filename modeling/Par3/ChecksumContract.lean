import Par3.PackedChecksum

/-!
# No false alarms, and no missed word

Inputs of any lengths are packed with their checksums, each in parts of its own. Where an output
is a linear combination of them, block for block, finishing it in any parts accepts it; where one
word of the combined slice was changed, finishing it in any parts reports a failure.
-/
namespace Par3

open BinaryField Word HornerChecksum

namespace PackedGeometry

variable (geom : PackedGeometry)

/-! ## Packing with checksums -/

/-- `gf16_prepare_partial_packsum` of the lookup kernel: the checksum is kept in the packed buffer
between the parts, and copied for the last one. -/
def gf16_prepare_partial_packsum (src : Buffer) (inputNum : ℕ) (dst : PackedBuffer)
    (partOffset partLen : ℕ) : PackedBuffer :=
  let dstChecksum := geom.gf16_checksum_ptr inputNum
  let checksum :=
    if partOffset = 0 then List.replicate gf16_lookup_stride 0 else dst dstChecksum
  let part := geom.gf16_prepare_packed lookupTransform lookupChecksum src inputNum dst partOffset
    partLen checksum
  if partOffset + partLen = src.length then part.1
  else Function.update part.1 dstChecksum part.2

/-- Pack an input with its checksum in parts of so many blocks, and a last part. -/
def packParts (src : Buffer) (inputNum : ℕ) : ℕ → List ℕ → PackedBuffer → PackedBuffer
  | start, [], dst =>
    geom.gf16_prepare_partial_packsum src inputNum dst (geom.blockLen * start)
      (src.length - geom.blockLen * start)
  | start, count :: rest, dst =>
    packParts src inputNum (start + count) rest
      (geom.gf16_prepare_partial_packsum src inputNum dst (geom.blockLen * start)
        (geom.blockLen * count))

/-- Pack inputs one after the other. -/
def packInputs (inputs : ℕ → Buffer) (cuts : ℕ → List ℕ) (order : List ℕ) (dst : PackedBuffer) :
    PackedBuffer :=
  order.foldl (fun dst inputNum => geom.packParts (inputs inputNum) inputNum 0 (cuts inputNum) dst)
    dst

/-- A packed buffer holds an input and its checksum. -/
structure Holds (src : Buffer) (inputNum : ℕ) (packed : PackedBuffer) : Prop where
  block : ∀ block < geom.sliceBlocks,
    packed (geom.slot inputNum block) = geom.paddedBlock src block
  checksum : ∀ index < 4, gf16At (packed (geom.slot inputNum geom.sliceBlocks)) index =
    take root (geom.sliceWords src index) 0 geom.sliceBlocks 0

section Packing

variable {geom}

/-- What packing writes at one address does not depend on the others. -/
theorem writeBlocks_congr (transform : BlockTransform) (src : Buffer) (inputNum start stop : ℕ)
    {first second : PackedBuffer} {address : ℕ} (same : first address = second address) :
    geom.writeBlocks transform src inputNum start stop first address =
      geom.writeBlocks transform src inputNum start stop second address := by
  simp only [writeBlocks]
  generalize stop - start = count
  induction count generalizing start first second with
  | zero => exact same
  | succ count ih =>
    rw [List.range'_succ, List.foldl_cons, List.foldl_cons]
    apply ih
    simp only [Function.update_apply, same]

/-- Packing in parts leaves the blocks of the slice behind, and its checksum. -/
theorem packParts_eq (valid : geom.Valid) (kept : geom.hasChecksum = true) (src : Buffer)
    (inputNum : ℕ) (fits : src.length ≤ geom.sliceLen) {start : ℕ} {counts : List ℕ}
    (ordered : geom.blockLen * start ≤ src.length)
    (cuts : geom.Cuts src.length start counts) (dst : PackedBuffer) :
    geom.packParts src inputNum start counts dst =
      Function.update
        (geom.writeBlocks lookupTransform src inputNum start geom.sliceBlocks dst)
        (geom.gf16_checksum_ptr inputNum)
        (lookupChecksum.prepareChecksum
          (geom.completed lookupChecksum src
            (geom.checkBlocks lookupChecksum src start (geom.srcBlocks src)
              (if geom.blockLen * start = 0 then List.replicate gf16_lookup_stride 0
                else dst (geom.gf16_checksum_ptr inputNum))))) := by
  induction counts generalizing start dst with
  | nil =>
    rw [packParts, gf16_prepare_partial_packsum, if_pos (by omega),
      prepare_rest lookupTransform lookupChecksum src inputNum valid fits _ start _ (by omega)]
    simp only [if_pos kept]
  | cons count rest ih =>
    obtain ⟨before, next⟩ := cuts.next
    have data := (dataBlock_iff src valid (start + count)).mp before
    have blocks := srcBlocks_le src valid fits
    have bytes := Nat.mul_add geom.blockLen start count
    rw [packParts, ih before.le next, gf16_prepare_partial_packsum,
      if_neg (by omega), prepare_part lookupTransform lookupChecksum src inputNum valid fits dst start
        count before, Function.update_self]
    have running (checksum : Buffer) (first : geom.blockLen * start = 0 →
        checksum = List.replicate gf16_lookup_stride 0) :
        (if geom.blockLen * (start + count) = 0 then List.replicate gf16_lookup_stride 0
          else geom.checkBlocks lookupChecksum src start (start + count) checksum) =
          geom.checkBlocks lookupChecksum src start (start + count) checksum := by
      split
      case isTrue zero =>
        have none : start + count = 0 :=
          (Nat.mul_eq_zero.mp zero).resolve_left valid.block_pos.ne'
        have both : start = 0 ∧ count = 0 := by omega
        rw [first (by rw [both.1, Nat.mul_zero]), both.1, both.2]
        rfl
      case isFalse => rfl
    rw [running _ (fun zero => if_pos zero),
      checkBlocks_append lookupChecksum src (Nat.le_add_right start count) data.le]
    funext address
    by_cases own : address = geom.gf16_checksum_ptr inputNum
    · rw [own, Function.update_self, Function.update_self]
    · rw [Function.update_of_ne own, Function.update_of_ne own,
        ← writeBlocks_append lookupTransform src inputNum (Nat.le_add_right start count)
          (show start + count ≤ geom.sliceBlocks by omega)]
      apply writeBlocks_congr
      exact Function.update_of_ne own _ _

variable (stride : geom.blockLen = gf16_lookup_stride)

include stride

theorem lookup_inverts : lookupTransform.Inverts geom.blockLen := by
  rw [stride]
  exact lookupTransform_inverts

/-- An input that was packed in parts is held by the buffer. -/
theorem packParts_holds (valid : geom.Valid) (kept : geom.hasChecksum = true) (src : Buffer)
    {inputNum : ℕ} (input : inputNum < geom.inputPackSize)
    (fits : src.length ≤ geom.sliceLen) {counts : List ℕ}
    (cuts : geom.Cuts src.length 0 counts) (dst : PackedBuffer) :
    geom.Holds src inputNum (geom.packParts src inputNum 0 counts dst) := by
  have first : geom.blockLen * 0 ≤ src.length := by
    rw [Nat.mul_zero]
    exact Nat.zero_le _
  have blocks := inputBlocks_eq valid.blocked
  rw [kept, if_pos rfl] at blocks
  constructor
  · intro block inside
    rw [packParts_eq valid kept src inputNum fits first cuts,
      Function.update_of_ne (checksum_apart valid kept input inside),
      writeBlocks_slot lookupTransform valid src input (Nat.zero_le block) inside (by omega),
      packedBlock_eq lookupTransform (lookup_inverts stride)]
    rfl
  · intro index inside
    rw [packParts_eq valid kept src inputNum fits first cuts, gf16_checksum_ptr_eq valid kept,
      Function.update_self, if_pos (Nat.mul_zero _), gf16At]
    simp only [lookupChecksum, read64_write64]
    exact gf16At_checksum stride valid kept src fits inside

omit stride in
/-- Packing an input leaves the others alone. -/
theorem packParts_keeps (valid : geom.Valid) (kept : geom.hasChecksum = true) (src : Buffer)
    {inputNum other : ℕ} (input : inputNum < geom.inputPackSize)
    (otherInput : other < geom.inputPackSize) (apart : other ≠ inputNum)
    (fits : src.length ≤ geom.sliceLen) {counts : List ℕ}
    (cuts : geom.Cuts src.length 0 counts) (dst : PackedBuffer) {block : ℕ}
    (inside : block < geom.inputBlocks) :
    geom.packParts src inputNum 0 counts dst (geom.slot other block) =
      dst (geom.slot other block) := by
  have first : geom.blockLen * 0 ≤ src.length := by
    rw [Nat.mul_zero]
    exact Nat.zero_le _
  have blocks := inputBlocks_eq valid.blocked
  rw [kept, if_pos rfl] at blocks
  have away : ∀ own < geom.inputBlocks,
      geom.slot other block ≠ geom.slot inputNum own := by
    intro own ownInside same
    exact apart (slot_injective valid.blocked otherInput input inside ownInside same).1
  rw [packParts_eq valid kept src inputNum fits first cuts, gf16_checksum_ptr_eq valid kept,
    Function.update_of_ne (away _ (by omega)), writeBlocks_other]
  intro own _ ownInside
  exact away own (by omega)

/-- Inputs that were packed one after the other are all held by the buffer. -/
theorem packInputs_holds (valid : geom.Valid) (kept : geom.hasChecksum = true)
    {inputs : ℕ → Buffer} {cuts : ℕ → List ℕ} {order : List ℕ} (distinct : order.Nodup)
    (input : ∀ inputNum ∈ order, inputNum < geom.inputPackSize)
    (fits : ∀ inputNum ∈ order, (inputs inputNum).length ≤ geom.sliceLen)
    (cut : ∀ inputNum ∈ order, geom.Cuts (inputs inputNum).length 0 (cuts inputNum))
    (dst : PackedBuffer) :
    (∀ inputNum ∈ order, geom.Holds (inputs inputNum) inputNum
      (geom.packInputs inputs cuts order dst)) ∧
    ∀ other < geom.inputPackSize, other ∉ order → ∀ block < geom.inputBlocks,
      geom.packInputs inputs cuts order dst (geom.slot other block) =
        dst (geom.slot other block) := by
  induction order generalizing dst with
  | nil =>
    constructor
    · intro inputNum member
      cases member
    · intro other _ _ block _
      rfl
  | cons first rest ih =>
    obtain ⟨apart, distinctRest⟩ := List.nodup_cons.mp distinct
    have firstInput := input first List.mem_cons_self
    have firstFits := fits first List.mem_cons_self
    have firstCut := cut first List.mem_cons_self
    obtain ⟨holds, keeps⟩ := ih distinctRest
      (fun inputNum member => input inputNum (List.mem_cons_of_mem _ member))
      (fun inputNum member => fits inputNum (List.mem_cons_of_mem _ member))
      (fun inputNum member => cut inputNum (List.mem_cons_of_mem _ member))
      (geom.packParts (inputs first) first 0 (cuts first) dst)
    have own := packParts_holds stride valid kept (inputs first) firstInput firstFits firstCut dst
    have blocks := inputBlocks_eq valid.blocked
    rw [kept, if_pos rfl] at blocks
    constructor
    · intro inputNum member
      rcases List.mem_cons.mp member with rfl | later
      · constructor
        · intro block inside
          exact (keeps inputNum firstInput apart block (by omega)).trans (own.block block inside)
        · intro index inside
          have same := keeps inputNum firstInput apart geom.sliceBlocks (by omega)
          exact (congrArg (gf16At · index) same).trans (own.checksum index inside)
      · exact holds inputNum later
    · intro other otherInput outside block inside
      rw [List.mem_cons, not_or] at outside
      refine (keeps other otherInput outside.2 block inside).trans ?_
      exact packParts_keeps valid kept (inputs first) firstInput otherInput outside.1 firstFits firstCut
        dst inside

end Packing

/-! ## Combining -/

/-- An output is a linear combination of packed inputs: every word of its blocks, and of its
checksum, is. -/
def Combines (outputs : PackedGeometry) (order : List ℕ) (coefficients : ℕ → Gf16)
    (packed : PackedBuffer) (outputNum : ℕ) (out : PackedBuffer) : Prop :=
  ∀ block < geom.inputBlocks,
    (out (outputs.slot outputNum block)).length = gf16_lookup_stride ∧
      ∀ index < 4, gf16At (out (outputs.slot outputNum block)) index =
        ∑ inputNum ∈ order.toFinset,
          coefficients inputNum * gf16At (packed (geom.slot inputNum block)) index

/-- One 16-bit word of an output was changed, inside its slice. -/
def ChangesWord (outputNum : ℕ) (out changed : PackedBuffer) : Prop :=
  ∃ block index bytes, index < 4 ∧
    gf16_lookup_stride * block + 2 * index + 2 ≤ geom.sliceLen ∧
    changed = Function.update out (geom.aligned.slot outputNum block) bytes ∧
    bytes.length = gf16_lookup_stride ∧
    gf16At bytes index ≠ gf16At (out (geom.aligned.slot outputNum block)) index ∧
    ∀ other < 4, other ≠ index →
      gf16At bytes other = gf16At (out (geom.aligned.slot outputNum block)) other

section Finishing

variable {geom} (stride : geom.blockLen = gf16_lookup_stride)
  (valid : geom.aligned.Valid) (kept : geom.hasChecksum = true)
  (even : geom.sliceLen % 2 = 0) (out : PackedBuffer) (outputNum : ℕ)
  (lengths : ∀ block < geom.aligned.inputBlocks,
    (out (geom.aligned.slot outputNum block)).length = gf16_lookup_stride)

/-- A word of the bytes of each block that finishing writes. -/
def outputWords (geom : PackedGeometry) (out : PackedBuffer) (outputNum index block : ℕ) : Gf16 :=
  gf16At (geom.unpackedBlock lookupTransform out outputNum block) index

include stride valid even lengths in
/-- Words inside the slice are those of the packed output; behind it there is nothing. -/
theorem outputWords_eq {block : ℕ} (inside : block < geom.aligned.sliceBlocks) {index : ℕ}
    (room : index < 4) :
    geom.outputWords out outputNum index block =
      if gf16_lookup_stride * block + 2 * index + 2 ≤ geom.sliceLen then
        gf16At (out (geom.aligned.slot outputNum block)) index
      else 0 := by
  have blocks := inputBlocks_eq valid.blocked
  have length := lengths block (by omega)
  have start : gf16_lookup_stride * block ≤ geom.sliceLen := by
    have whole := aligned_blocks valid
    have bytes := Nat.mul_le_mul_left geom.blockLen
      (show block ≤ geom.wholeBlocks by split at whole <;> omega)
    have fits := Nat.div_mul_le_self geom.sliceLen geom.blockLen
    rw [wholeBlocks, Nat.mul_comm _ (_ / _)] at bytes
    rw [← stride]
    omega
  rw [outputWords, unpackedBlock, stride]
  rw [gf16_lookup_stride] at length start ⊢
  split
  case isTrue whole =>
    rw [if_pos (by omega)]
    rfl
  case isFalse cut =>
    change gf16At ((out _).take _) index = _
    rw [gf16At_take length (by omega) (by omega)]
    congr 1
    apply propext
    omega

include kept in
/-- The checksum takes the words of the blocks that are finished. -/
theorem gf16At_checkOutputs {start stop : ℕ} (ordered : start ≤ stop)
    (blocks : ∀ block < stop,
      (out (geom.aligned.slot outputNum block)).length = gf16_lookup_stride)
    {checksum : Buffer} (long : checksum.length = 8) {index : ℕ} (room : index < 4) :
    (geom.checkOutputs lookupTransform lookupChecksum out outputNum start stop checksum).length =
        8 ∧
      gf16At (geom.checkOutputs lookupTransform lookupChecksum out outputNum start stop checksum)
          index =
        take root (geom.outputWords out outputNum index) start stop (gf16At checksum index) := by
  induction stop, ordered using Nat.le_induction with
  | base =>
    rw [take_self, checkOutputs, Nat.sub_self]
    exact ⟨long, rfl⟩
  | succ stop ordered ih =>
    obtain ⟨length, words⟩ := ih fun block inside => blocks block (by omega)
    have one : stop + 1 - stop = 1 := by omega
    have own : (geom.unpackedBlock lookupTransform out outputNum stop).length ≤ 8 := by
      have whole := blocks stop (Nat.lt_succ_self stop)
      rw [gf16_lookup_stride] at whole
      rw [unpackedBlock]
      split
      · exact whole.le
      · change ((out _).take _).length ≤ 8
        rw [List.length_take]
        omega
    have next : geom.checkOutputs lookupTransform lookupChecksum out outputNum start (stop + 1)
        checksum = gf16_checksum_blocku_generic
          (geom.unpackedBlock lookupTransform out outputNum stop)
          (geom.checkOutputs lookupTransform lookupChecksum out outputNum start stop checksum) := by
      rw [← checkOutputs_append lookupTransform lookupChecksum out outputNum ordered
        (Nat.le_succ stop)]
      conv_lhs => rw [checkOutputs, Nat.succ_eq_add_one, one, List.range'_one, List.foldl_cons,
        List.foldl_nil, checkOutput, if_pos kept]
      split
      · rfl
      · rfl
    rw [next]
    constructor
    · rw [blocku_generic_length length.ge, length]
    · rw [gf16At_blocku own _ room, words, take_succ root _ ordered]
      rfl

include valid kept lengths in
/-- Finishing accepts where the checksum it finds is that of the words it writes. -/
theorem accepts_iff :
    ((checkedTo lookupTransform lookupChecksum out outputNum geom 0
        geom.aligned.sliceBlocks).all fun byte => byte = 0) = true ↔
      ∀ index < 4, gf16At (out (geom.aligned.slot outputNum geom.aligned.sliceBlocks)) index +
        take root (geom.outputWords out outputNum index) 0 geom.aligned.sliceBlocks 0 = 0 := by
  have blocks := inputBlocks_eq valid.blocked
  have keptAligned : geom.aligned.hasChecksum = true := kept
  rw [keptAligned, if_pos rfl] at blocks
  have length := lengths geom.aligned.sliceBlocks (by omega)
  have small : 65535 - geom.aligned.sliceLen / geom.blockLen % 65535 < 2 ^ 16 := by omega
  have rewoundLength : (geom.rewound lookupChecksum (geom.blockLen * 0)
      (out (geom.aligned.slot outputNum geom.aligned.sliceBlocks))).length = 8 := by
    rw [rewound, if_pos (Nat.mul_zero _)]
    exact (exp_generic_length length.ge _).trans length
  have rewoundWord (index : ℕ) (room : index < 4) :
      gf16At (geom.rewound lookupChecksum (geom.blockLen * 0)
        (out (geom.aligned.slot outputNum geom.aligned.sliceBlocks))) index =
      root ^ (65535 - geom.aligned.sliceBlocks % 65535) *
        gf16At (out (geom.aligned.slot outputNum geom.aligned.sliceBlocks)) index := by
    rw [rewound, if_pos (Nat.mul_zero _)]
    change gf16At (gf16_checksum_exp_generic _ (gf16_exp _)) index = _
    rw [gf16At_exp _ _ room, gf16_exp_eq small]
    rfl
  have checked := fun index room => @gf16At_checkOutputs geom kept out outputNum 0
    geom.aligned.sliceBlocks (Nat.zero_le _) (fun block inside => lengths block (by omega))
    (geom.rewound lookupChecksum (geom.blockLen * 0)
      (out (geom.aligned.slot outputNum geom.aligned.sliceBlocks))) rewoundLength index room
  rw [checkedTo, if_pos kept, gf16_checksum_ptr_eq valid keptAligned,
    all_zero_iff (checked 0 (by decide)).1]
  apply forall_congr'
  intro index
  apply forall_congr'
  intro room
  rw [(checked index room).2, rewoundWord index room, rewind_take gf16_root_order (by decide)]

end Finishing

/-! ## The contract -/

section Contract

variable {geom}

/-- The words that finishing writes of a combination are the combination of the words of the
inputs. -/
theorem outputWords_combination {inputs : PackedGeometry} {contents : ℕ → Buffer} {order : List ℕ}
    {coefficients : ℕ → Gf16} {packed out : PackedBuffer} {outputNum : ℕ}
    (stride : geom.blockLen = gf16_lookup_stride)
    (inputStride : inputs.blockLen = gf16_lookup_stride)
    (valid : geom.aligned.Valid) (inputValid : inputs.Valid)
    (sameSlice : inputs.sliceLen = geom.aligned.sliceLen)
    (sameChecksum : inputs.hasChecksum = geom.hasChecksum)
    (even : geom.sliceLen % 2 = 0)
    (holds : ∀ inputNum ∈ order, inputs.Holds (contents inputNum) inputNum packed)
    (fits : ∀ inputNum ∈ order, (contents inputNum).length ≤ geom.sliceLen)
    (combines : inputs.Combines geom.aligned order coefficients packed outputNum out)
    {block : ℕ} (inside : block < geom.aligned.sliceBlocks) {index : ℕ} (room : index < 4) :
    geom.outputWords out outputNum index block =
      ∑ inputNum ∈ order.toFinset,
        coefficients inputNum * inputs.sliceWords (contents inputNum) index block := by
  have sameBlocks : inputs.sliceBlocks = geom.aligned.sliceBlocks := by
    rw [sliceBlocks, sliceBlocks, sameSlice, inputStride]
    exact congrArg _ stride.symm
  have sameInputBlocks : inputs.inputBlocks = geom.aligned.inputBlocks := by
    rw [inputBlocks_eq valid.blocked, inputBlocks_eq inputValid.blocked, sameBlocks, sameChecksum]
    rfl
  have blocks := inputBlocks_eq valid.blocked
  rw [outputWords_eq stride valid even out outputNum
    (fun block inside => (combines block (by omega)).1) inside room]
  split
  case isTrue =>
    rw [(combines block (by omega)).2 index room]
    apply Finset.sum_congr rfl
    intro inputNum member
    rw [(holds inputNum (List.mem_toFinset.mp member)).block block (by omega)]
    rfl
  case isFalse behind =>
    symm
    apply Finset.sum_eq_zero
    intro inputNum member
    have short := fits inputNum (List.mem_toFinset.mp member)
    rw [sliceWords_behind inputStride, mul_zero]
    rw [gf16_lookup_stride] at behind ⊢
    omega

/-- Inputs and outputs of the lookup kernel whose slices are of one length, with checksums. -/
structure SameSlices (inputs outputs : PackedGeometry) : Prop where
  inputStride : inputs.blockLen = gf16_lookup_stride
  outputStride : outputs.blockLen = gf16_lookup_stride
  inputValid : inputs.Valid
  outputValid : outputs.aligned.Valid
  inputKept : inputs.hasChecksum = true
  outputKept : outputs.hasChecksum = true
  sameSlice : inputs.sliceLen = outputs.aligned.sliceLen
  even : outputs.sliceLen % 2 = 0

variable {inputs outputs : PackedGeometry} {contents : ℕ → Buffer} {order : List ℕ}
  {coefficients : ℕ → Gf16} {packed out changed : PackedBuffer} {outputNum : ℕ}

theorem SameSlices.sliceBlocks_eq (same : SameSlices inputs outputs) :
    inputs.sliceBlocks = outputs.aligned.sliceBlocks := by
  rw [sliceBlocks, sliceBlocks, same.sameSlice, same.inputStride]
  exact congrArg _ same.outputStride.symm

theorem SameSlices.inputBlocks_eq (same : SameSlices inputs outputs) :
    inputs.inputBlocks = outputs.aligned.sliceBlocks + 1 ∧
      outputs.aligned.inputBlocks = outputs.aligned.sliceBlocks + 1 := by
  have kept : outputs.aligned.hasChecksum = true := same.outputKept
  constructor
  · rw [PackedGeometry.inputBlocks_eq same.inputValid.blocked, same.inputKept, same.sliceBlocks_eq, if_pos rfl]
  · rw [PackedGeometry.inputBlocks_eq same.outputValid.blocked, kept, if_pos rfl]

/-- What finishing finds is the checksum of the combination. -/
theorem combined_checksum (same : SameSlices inputs outputs)
    (holds : ∀ inputNum ∈ order, inputs.Holds (contents inputNum) inputNum packed)
    (fits : ∀ inputNum ∈ order, (contents inputNum).length ≤ outputs.sliceLen)
    (combines : inputs.Combines outputs.aligned order coefficients packed outputNum out)
    {index : ℕ} (room : index < 4) :
    gf16At (out (outputs.aligned.slot outputNum outputs.aligned.sliceBlocks)) index =
      take root (outputs.outputWords out outputNum index) 0 outputs.aligned.sliceBlocks 0 := by
  have blocks := same.inputBlocks_eq.1
  have words := take_combination (root : Gf16) order.toFinset coefficients
    (fun inputNum => inputs.sliceWords (contents inputNum) index)
    (Nat.zero_le outputs.aligned.sliceBlocks)
  rw [take_congr root (Nat.zero_le _) fun block _ inside => outputWords_combination same.outputStride
    same.inputStride same.outputValid same.inputValid same.sameSlice
    (same.inputKept.trans same.outputKept.symm) same.even holds fits combines inside room, words,
    (combines outputs.aligned.sliceBlocks (by omega)).2 index room]
  apply Finset.sum_congr rfl
  intro inputNum member
  have checksum := (holds inputNum (List.mem_toFinset.mp member)).checksum index room
  rw [same.sliceBlocks_eq] at checksum
  rw [checksum]

/-- A changed word moves what finishing adds up, and nothing else. -/
theorem changed_checksum (same : SameSlices inputs outputs)
    (output : outputNum < outputs.inputPackSize)
    (lengths : ∀ block < outputs.aligned.inputBlocks,
      (out (outputs.aligned.slot outputNum block)).length = gf16_lookup_stride)
    (changes : outputs.ChangesWord outputNum out changed) :
    (∀ block < outputs.aligned.inputBlocks,
      (changed (outputs.aligned.slot outputNum block)).length = gf16_lookup_stride) ∧
    changed (outputs.aligned.slot outputNum outputs.aligned.sliceBlocks) =
      out (outputs.aligned.slot outputNum outputs.aligned.sliceBlocks) ∧
    ∃ index < 4, ∃ exponent difference, difference ≠ 0 ∧
      take root (outputs.outputWords changed outputNum index) 0 outputs.aligned.sliceBlocks 0 =
        take root (outputs.outputWords out outputNum index) 0 outputs.aligned.sliceBlocks 0 +
          root ^ exponent * difference := by
  obtain ⟨block, index, bytes, room, bound, rfl, length, differs, -⟩ := changes
  have blocks := same.inputBlocks_eq.2
  have inside : block < outputs.aligned.sliceBlocks := by
    apply part_inside same.outputValid
    rw [same.outputStride]
    omega
  have apart : ∀ other < outputs.aligned.inputBlocks, other ≠ block →
      outputs.aligned.slot outputNum other ≠ outputs.aligned.slot outputNum block := by
    intro other otherInside distinct meet
    exact distinct (slot_injective same.outputValid.blocked output output otherInside (by omega) meet).2
  have changedLengths : ∀ other < outputs.aligned.inputBlocks,
      (Function.update out (outputs.aligned.slot outputNum block) bytes
        (outputs.aligned.slot outputNum other)).length = gf16_lookup_stride := by
    intro other otherInside
    by_cases own : other = block
    · rw [own, Function.update_self]
      exact length
    · rw [Function.update_of_ne (apart other otherInside own)]
      exact lengths other otherInside
  refine ⟨changedLengths, Function.update_of_ne (apart _ (by omega) (by omega)) _ _, index, room,
    outputs.aligned.sliceBlocks - (block + 1),
    gf16At bytes index - gf16At (out (outputs.aligned.slot outputNum block)) index,
    sub_ne_zero.mpr differs, ?_⟩
  have word := outputWords_eq same.outputStride same.outputValid same.even out outputNum lengths inside
    room
  have changedWord := outputWords_eq same.outputStride same.outputValid same.even _ outputNum
    changedLengths inside room
  rw [if_pos bound] at word changedWord
  rw [Function.update_self] at changedWord
  rw [← word, ← changedWord]
  apply take_changed root (Nat.zero_le block) inside
  intro other _ otherInside distinct
  rw [outputWords, outputWords, unpackedBlock, unpackedBlock,
    Function.update_of_ne (apart other (by omega) distinct)]

/-- Inputs of any lengths that were packed in any parts and combined with any coefficients are
accepted, in whichever parts that are not empty the output is finished; and an output of which one
word was changed is not. -/
theorem combination_checked (same : SameSlices inputs outputs) (distinct : order.Nodup)
    (input : ∀ inputNum ∈ order, inputNum < inputs.inputPackSize)
    (fits : ∀ inputNum ∈ order, (contents inputNum).length ≤ outputs.sliceLen)
    (cuts : ℕ → List ℕ)
    (cut : ∀ inputNum ∈ order, inputs.Cuts (contents inputNum).length 0 (cuts inputNum))
    (dst : PackedBuffer) (output : outputNum < outputs.inputPackSize)
    (combines : inputs.Combines outputs.aligned order coefficients
      (inputs.packInputs contents cuts order dst) outputNum out)
    (counts : List ℕ) (outputCut : outputs.Cuts outputs.sliceLen 0 counts)
    (some : ∀ count ∈ counts, 0 < count) (slice : ByteMemory) :
    (outputs.finishParts lookupTransform lookupChecksum outputNum 0 counts out slice).2.2 = true ∧
      ∀ changed, outputs.ChangesWord outputNum out changed →
        (outputs.finishParts lookupTransform lookupChecksum outputNum 0 counts changed slice).2.2 =
          false := by
  have blocks := same.inputBlocks_eq
  have up : outputs.sliceLen ≤ inputs.sliceLen := by
    rw [same.sameSlice, aligned_slice same.outputValid]
    by_contra short
    exact lt_irrefl _ (part_inside same.outputValid (not_le.mp short))
  have holds := (packInputs_holds same.inputStride same.inputValid same.inputKept distinct input
    (fun inputNum member => (fits inputNum member).trans up) cut dst).1
  have lengths : ∀ block < outputs.aligned.inputBlocks,
      (out (outputs.aligned.slot outputNum block)).length = gf16_lookup_stride :=
    fun block inside => (combines block (by omega)).1
  have first : outputs.blockLen * 0 ≤ outputs.sliceLen := by
    rw [Nat.mul_zero]
    exact Nat.zero_le _
  have checks := fun src => finishParts_checks lookupTransform lookupChecksum same.outputValid output
    first outputCut some src slice
  simp only [same.outputKept, if_true] at checks
  constructor
  · rw [checks, accepts_iff same.outputValid same.outputKept out outputNum lengths]
    intro index room
    rw [combined_checksum same holds fits combines room]
    exact add_self _
  · intro changed changes
    obtain ⟨changedLengths, checksum, index, room, exponent, difference, some, moved⟩ :=
      changed_checksum same output lengths changes
    rw [checks, Bool.eq_false_iff, ne_eq,
      accepts_iff same.outputValid same.outputKept changed outputNum changedLengths]
    intro zero
    have left := zero index room
    rw [checksum, moved, combined_checksum same holds fits combines room, ← add_assoc, add_self,
      zero_add] at left
    exact some (pow_mul_eq_zero gf16_root_order (by decide) exponent left)

end Contract

/-! ## Two blocks -/

/-- Two slices of two blocks. -/
def twoBlocks : PackedGeometry := ⟨16, gf16_lookup_stride, 2, 8, 1, true⟩

/-- A short input and a full one, each packed in two parts. -/
def twoBlocksPacked : PackedBuffer :=
  twoBlocks.packInputs (fun inputNum => if inputNum = 0 then [1, 2, 3, 4, 5, 6, 7, 8, 9]
    else [1, 0, 2, 0, 3, 0, 4, 0, 5, 0, 6, 0, 7, 0, 8, 0]) (fun _ => [1]) [0, 1] fun _ => []

def twoBlocksCoefficients (inputNum : ℕ) : Gf16 := if inputNum = 0 then 1 else root

/-- The first input and the second times the root. The blocks of the second are behind those of the
first. -/
def twoBlocksCombined : PackedBuffer := fun address => (List.range 4).flatMap fun index =>
  let word := gf16At (twoBlocksPacked address) index + root * gf16At (twoBlocksPacked (address + 8)) index
  toLittleEndian 2 word.bits.toNat

theorem twoBlocks_same : SameSlices twoBlocks twoBlocks := by
  have valid : twoBlocks.Valid := ⟨⟨by decide, by decide, by decide⟩,
    ⟨by decide, by decide, by decide, by decide, by decide, by decide⟩⟩
  exact ⟨rfl, rfl, valid, valid, rfl, rfl, rfl, rfl⟩

theorem twoBlocks_combines : twoBlocks.Combines twoBlocks.aligned [0, 1] twoBlocksCoefficients
    twoBlocksPacked 0 twoBlocksCombined := by
  have words : ∀ block < 3, (twoBlocksCombined (twoBlocks.aligned.slot 0 block)).length = 8 ∧
      ∀ index < 4, gf16At (twoBlocksCombined (twoBlocks.aligned.slot 0 block)) index =
        1 * gf16At (twoBlocksPacked (twoBlocks.slot 0 block)) index +
          root * gf16At (twoBlocksPacked (twoBlocks.slot 1 block)) index := by
    decide +kernel
  have count : twoBlocks.inputBlocks = 3 := by decide
  intro block inside
  obtain ⟨length, sums⟩ := words block (count ▸ inside)
  refine ⟨length, fun index below => ?_⟩
  rw [sums index below, show [0, 1].toFinset = {0, 1} from rfl, Finset.sum_pair (by decide)]
  rfl

/-- Finished in two parts, the combination is accepted, and not after a change of its second block. -/
theorem twoBlocks_checked :
    (twoBlocks.finishParts lookupTransform lookupChecksum 0 0 [1] twoBlocksCombined (fun _ => 0)).2.2 =
        true ∧
      (twoBlocks.finishParts lookupTransform lookupChecksum 0 0 [1]
        (Function.update twoBlocksCombined 16 [3, 0, 12, 0, 15, 0, 16, 0]) (fun _ => 0)).2.2 = false := by
  obtain ⟨accepted, refused⟩ := combination_checked twoBlocks_same (by decide) (by decide) (by decide)
    (fun _ => [1]) (fun inputNum member _ => by revert inputNum; decide) (fun _ => []) (by decide)
    twoBlocks_combines [1] (fun _ => by decide) (by decide) fun _ => 0
  exact ⟨accepted, refused _ ⟨1, 2, [3, 0, 12, 0, 15, 0, 16, 0], by decide, by decide, rfl, rfl, by decide +kernel,
    by decide +kernel⟩⟩

/-! ## One block -/

/-- A slice of one block, packed alone. -/
def oneBlock : PackedGeometry := ⟨8, gf16_lookup_stride, 1, 8, 1, true⟩

/-- The buffer that holds an input of one block. -/
def oneBlockPacked : PackedBuffer :=
  oneBlock.packInputs (fun _ => [1, 0, 0, 0, 0, 0, 0, 0]) (fun _ => []) [0] (fun _ => [])

theorem oneBlock_valid : oneBlock.Valid where
  chunk_fits := by decide
  chunk_aligned := by decide
  slice_aligned := by decide
  block_pos := by decide
  interleave_pos := by decide
  chunk_pos := by decide
  slice_pos := by decide
  slice_small := by decide
  chunks_small := by decide

theorem oneBlock_combines :
    oneBlock.Combines oneBlock.aligned [0] (fun _ => 1) oneBlockPacked 0 oneBlockPacked := by
  intro block inside
  have blocks : block = 0 ∨ block = 1 := by
    have count : oneBlock.inputBlocks = 2 := by decide
    omega
  constructor
  · rcases blocks with rfl | rfl
    · decide
    · decide
  · intro index _
    simp only [List.toFinset_cons, List.toFinset_nil, insert_empty_eq, Finset.sum_singleton, one_mul]
    rfl

/-- The buffer behind a part of it that is empty. -/
def oneBlockRewound : PackedBuffer :=
  Function.update oneBlockPacked 8 (gf16_checksum_exp_generic (oneBlockPacked 8) (gf16_exp 65534))

theorem oneBlock_slots : oneBlock.aligned.slot 0 0 = 0 ∧
    oneBlock.aligned.slot 0 oneBlock.aligned.sliceBlocks = 8 ∧
    oneBlock.aligned.gf16_checksum_ptr 0 = 8 ∧ oneBlock.aligned.inputBlocks = 2 := by
  decide

theorem oneBlockRewound_words :
    oneBlockRewound 0 = oneBlockPacked 0 ∧ (oneBlockRewound 8).length = 8 ∧
      gf16At (oneBlockRewound 8) 0 = root ^ 65534 := by
  have found : oneBlockRewound 8 =
      gf16_checksum_exp_generic (oneBlockPacked 8) (gf16_exp 65534) := by
    rw [oneBlockRewound, Function.update_self]
  have long : 8 ≤ (oneBlockPacked 8).length := by decide
  have one : gf16At (oneBlockPacked 8) 0 = 1 := by decide
  refine ⟨?_, ?_, ?_⟩
  · rw [oneBlockRewound, Function.update_of_ne (show 0 ≠ 8 by decide)]
  · rw [found, exp_generic_length long]
    decide
  · rw [found, gf16At_exp _ _ (by decide), gf16_exp_eq (by decide), one, mul_one]

/-- An empty part only rewinds the checksum. -/
theorem emptyPart_rewinds (slice : ByteMemory) :
    oneBlock.finishParts lookupTransform lookupChecksum 0 0 [0] oneBlockPacked slice =
      oneBlock.finishParts lookupTransform lookupChecksum 0 0 [] oneBlockRewound slice := by
  have before : oneBlock.blockLen * (0 + 0) < oneBlock.sliceLen := by decide
  have aligned : oneBlock.aligned.Valid := oneBlock_valid
  have part := finish_part lookupTransform lookupChecksum oneBlockPacked 0 aligned slice 0 0 before
  have kept : oneBlock.hasChecksum = true := rfl
  have exponent : 65535 - oneBlock.aligned.sliceLen / oneBlock.blockLen % 65535 = 65534 := by decide
  have same : checkedTo lookupTransform lookupChecksum oneBlockPacked 0 oneBlock 0 (0 + 0) =
      gf16_checksum_exp_generic (oneBlockPacked 8) (gf16_exp 65534) := by
    have exp (checksum : Buffer) (count : ℕ) : lookupChecksum.checksumExp
        (lookupChecksum.inlineFinishBlock checksum) count =
          gf16_checksum_exp_generic checksum (gf16_exp count) := rfl
    rw [checkedTo, if_pos kept, checkOutputs, rewound, if_pos (Nat.mul_zero _), exponent,
      oneBlock_slots.2.2.1, exp, Nat.add_zero, Nat.sub_self, List.range'_zero, List.foldl_nil]
  rw [kept, if_pos rfl, same, oneBlock_slots.2.2.1, unpackBlocks, Nat.add_zero, Nat.sub_self,
    List.range'_zero, List.foldl_nil] at part
  simp only [finishParts, part, Nat.add_zero, oneBlockRewound]

/-- With an empty part before the others, the checksum is rewound twice and an output that is right
is refused. In a slice of `2 ^ 32` chunks the checksum is not behind the blocks at all. -/
theorem emptyPart_refused :
    oneBlock.Combines oneBlock.aligned [0] (fun _ => 1) oneBlockPacked 0 oneBlockPacked ∧
      (oneBlock.finishParts lookupTransform lookupChecksum 0 0 [0] oneBlockPacked
        (fun _ => 0)).2.2 = false ∧
      PackedGeometry.gf16_checksum_ptr ⟨2 ^ 35, gf16_lookup_stride, 1, 8, 1, true⟩ 0 =
        PackedGeometry.slot ⟨2 ^ 35, gf16_lookup_stride, 1, 8, 1, true⟩ 0 0 := by
  refine ⟨oneBlock_combines, ?_, by decide⟩
  obtain ⟨data, length, rewound⟩ := oneBlockRewound_words
  obtain ⟨slot, checksumSlot, -, count⟩ := oneBlock_slots
  have aligned : oneBlock.aligned.Valid := oneBlock_valid
  have kept : oneBlock.hasChecksum = true := rfl
  have first : oneBlock.blockLen * 0 ≤ oneBlock.sliceLen := by decide
  have blocks : oneBlock.aligned.sliceBlocks = 1 := by decide
  have lengths : ∀ block < oneBlock.aligned.inputBlocks,
      (oneBlockRewound (oneBlock.aligned.slot 0 block)).length = gf16_lookup_stride := by
    intro block inside
    rw [count] at inside
    rcases (show block = 0 ∨ block = 1 by omega) with rfl | rfl
    · rw [slot, data]
      decide
    · rw [← blocks, checksumSlot]
      exact length
  rw [emptyPart_rewinds, finishParts_checks lookupTransform lookupChecksum aligned (by decide) first
    (fun nonempty => absurd rfl nonempty) (fun _ member => by cases member), if_pos kept,
    Bool.eq_false_iff, ne_eq, accepts_iff aligned kept oneBlockRewound 0 lengths]
  intro zero
  have left := zero 0 (by decide)
  have words : take root (oneBlock.outputWords oneBlockRewound 0 0) 0 oneBlock.aligned.sliceBlocks 0 =
      1 := by
    have own : oneBlock.outputWords oneBlockRewound 0 0 0 = 1 := by
      rw [outputWords, unpackedBlock, slot, data]
      decide
    rw [blocks]
    change root * 0 + oneBlock.outputWords oneBlockRewound 0 0 0 = 1
    rw [own, mul_zero, zero_add]
  rw [checksumSlot, rewound, words] at left
  have inverse : (root : Gf16) ^ 65534 = 1 :=
    calc (root : Gf16) ^ 65534 = root ^ 65534 + 1 + 1 := by rw [add_assoc, add_self, add_zero]
      _ = 1 := by rw [left, zero_add]
  have order := gf16_root_order
  rw [pow_succ, inverse, one_mul] at order
  exact absurd order (by decide)

end PackedGeometry

end Par3
