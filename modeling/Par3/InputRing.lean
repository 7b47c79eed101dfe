import Par3.Archive
import Par3.Foundations.Runs

/-!
# The ring of input buffers

On the path that computes recovery data batch by batch, without hash workers, each block is read
to a slice of one large buffer. The slices are handed out one behind the other, again from the
front when the buffer ends and when a file begins. A whole block is not copied: the batch keeps
the slice until the batch is folded into the accumulator.

Within one file, block `i` comes to stand at place `i` modulo the number of whole blocks that the
buffer has room for. So the blocks of a batch are kept apart exactly when no two of them, the
earlier a whole block, have the same place.
-/
namespace Par3

/-- The size of `inputBufferPool`. A buffer that an earlier create made is kept. -/
def ensureInputPool (earlier : Option ℕ) (totalSize : ℕ) : ℕ :=
  earlier.getD (min (64 * 1024 * 1024) (max (1024 * 1024) (totalSize + 64 * 1024)))

/-- `acquireInputBuffer`: where the slice begins, `none` for a buffer of its own, and the offset
after the call. -/
def acquireInputBuffer (poolSize offset size : ℕ) : Option ℕ × ℕ :=
  if poolSize < size then (none, offset)
  else
    let offset := if poolSize < offset + size then 0 else offset
    (some offset, offset + size)

/-- A buffer in `batchInputs`: a slice of the pool, or bytes of its own. With it goes the block
that was put in it. -/
structure BatchInput where
  slice : Option ℕ
  bytes : Buffer
  block : Buffer

/-- The input pool, its offset, and the buffers of the batch. -/
structure InputState where
  inputBufferPool : ℕ → UInt8
  inputBufferPoolOffset : ℕ
  batchInputs : List BatchInput

/-- The bytes of a file are read to a slice. -/
def writeSlice (pool : ℕ → UInt8) (start : ℕ) (bytes : Buffer) (index : ℕ) : UInt8 :=
  if start ≤ index ∧ index < start + bytes.length then bytes.getD (index - start) 0 else pool index

/-- What a buffer of the batch holds now. -/
def BatchInput.contents (pool : ℕ → UInt8) (input : BatchInput) : Buffer :=
  match input.slice with
  | none => input.bytes
  | some start => (List.range input.block.length).map fun index => pool (start + index)

/-- The options of create that matter here: the block size, the environment variable for the
batch size, and the size of a pool from an earlier create. -/
structure InputOptions where
  blockSize : ℕ
  PAR3_BATCH_SIZE : ℕ
  earlierPool : Option ℕ
  blockSize_large : 1024 ≤ blockSize

/-- `BATCH_SIZE`. -/
def InputOptions.BATCH_SIZE (options : InputOptions) : ℕ :=
  if options.PAR3_BATCH_SIZE = 0 then 64 else options.PAR3_BATCH_SIZE

/-- The steps of the read loop. -/
inductive InputStep where
  | resetInputBufferPool
  | readBlock (block : Buffer)
  | flushFullBatch
  | flushBatch

namespace InputRing

variable (poolSize blockSize batchSize : ℕ)

/-- A block is read to an acquired buffer. A short block is copied to a padded buffer of its
own. -/
def readBlock (state : InputState) (block : Buffer) : InputState :=
  let (slice, offset) := acquireInputBuffer poolSize state.inputBufferPoolOffset block.length
  let pool :=
    match slice with
    | none => state.inputBufferPool
    | some start => writeSlice state.inputBufferPool start block
  let input : BatchInput :=
    if block.length < blockSize then ⟨none, padBlock blockSize block, padBlock blockSize block⟩
    else ⟨slice, block, block⟩
  ⟨pool, offset, state.batchInputs ++ [input]⟩

def step (state : InputState) : InputStep → Option InputState
  | .resetInputBufferPool => some { state with inputBufferPoolOffset := 0 }
  | .readBlock block => some (readBlock poolSize blockSize state block)
  | .flushFullBatch =>
    if batchSize ≤ state.batchInputs.length then some { state with batchInputs := [] }
    else some state
  | .flushBatch => some { state with batchInputs := [] }

/-- The steps for one file. -/
def fileSteps (file : Buffer) : List InputStep :=
  if file.length = 0 then [.resetInputBufferPool]
  else
    .resetInputBufferPool ::
      (cut blockSize file).flatMap (fun block => [.readBlock block, .flushFullBatch]) ++
      [.resetInputBufferPool]

/-- The steps for all files. -/
def createSteps (files : List Buffer) : List InputStep :=
  files.flatMap (fileSteps blockSize) ++ [.flushBatch]

/-- The state before the first file. -/
def InputState.start : InputState := ⟨fun _ => 0, 0, []⟩

/-- Every buffer of the batch holds the block that was put in it. -/
def Intact (state : InputState) : Prop :=
  ∀ input ∈ state.batchInputs, input.contents state.inputBufferPool = input.block

/-- The slice for a block has no byte in common with a buffer that the batch keeps. -/
def apart (state : InputState) : InputStep → Prop
  | .readBlock block => ∀ start,
      (acquireInputBuffer poolSize state.inputBufferPoolOffset block.length).1 = some start →
      ∀ input ∈ state.batchInputs, ∀ kept, input.slice = some kept →
        start + block.length ≤ kept ∨ kept + input.block.length ≤ start
  | _ => True

/-! ## Places in the ring -/

/-- The blocks of a file: their index in the file and their size. -/
def filePlaces (size : ℕ) : List (ℕ × ℕ) :=
  (List.range ((size + blockSize - 1) / blockSize)).map fun index =>
    (index, min blockSize (size - index * blockSize))

/-- The place of a block in the ring, counted in whole blocks. A short block behind the last
place has one of its own, when there is room left for it. -/
def ringPlace (block : ℕ × ℕ) : ℕ :=
  let places := poolSize / blockSize
  if block.1 % places = 0 ∧ 0 < block.1 ∧ places * blockSize + block.2 ≤ poolSize then places
  else block.1 % places

/-- In every batch, no whole block is followed by a block with the same place; or blocks are
larger than the pool. -/
def RingFree (blocks : List (ℕ × ℕ)) : Prop :=
  blockSize ≤ poolSize → ∀ (first second : ℕ) (earlier later : ℕ × ℕ),
    blocks[first]? = some earlier → blocks[second]? = some later → first < second →
    first / batchSize = second / batchSize → earlier.2 = blockSize →
    ringPlace poolSize blockSize later ≠ ringPlace poolSize blockSize earlier

/-! ## What the batch holds -/

section

variable {poolSize blockSize batchSize : ℕ}

theorem writeSlice_other {pool : ℕ → UInt8} {start index : ℕ} {bytes : Buffer}
    (outside : index < start ∨ start + bytes.length ≤ index) :
    writeSlice pool start bytes index = pool index := by
  rw [writeSlice, if_neg]
  omega

/-- A slice holds the bytes that were written to it. -/
theorem contents_writeSlice (pool : ℕ → UInt8) (start : ℕ) (bytes : Buffer) :
    ((List.range bytes.length).map fun index => writeSlice pool start bytes (start + index)) =
      bytes := by
  apply List.ext_getElem
  · rw [List.length_map, List.length_range]
  · intro index inside _
    rw [List.length_map, List.length_range] at inside
    rw [List.getElem_map, List.getElem_range, writeSlice, if_pos (by omega),
      Nat.add_sub_cancel_left, List.getD_eq_getElem?_getD, List.getElem?_eq_getElem inside,
      Option.getD_some]

/-- A buffer keeps its bytes when a slice is written that has none of them. -/
theorem contents_kept {pool : ℕ → UInt8} {start : ℕ} {bytes : Buffer} {input : BatchInput}
    (disjoint : ∀ kept, input.slice = some kept →
      start + bytes.length ≤ kept ∨ kept + input.block.length ≤ start) :
    input.contents (writeSlice pool start bytes) = input.contents pool := by
  rw [BatchInput.contents, BatchInput.contents]
  cases place : input.slice with
  | none => rfl
  | some kept =>
    apply List.map_congr_left
    intro index inside
    rw [List.mem_range] at inside
    apply writeSlice_other
    rcases disjoint kept place with before | behind
    · exact .inr (by omega)
    · exact .inl (by omega)

/-- Blocks that are read to slices of their own leave the batch as it was. -/
theorem intact_step (state : InputState) (taken : InputStep) (next : InputState)
    (intact : Intact state) (disjoint : apart poolSize state taken)
    (result : step poolSize blockSize batchSize state taken = some next) : Intact next := by
  cases taken with
  | resetInputBufferPool =>
    obtain rfl := Option.some.inj result
    exact intact
  | flushFullBatch =>
    rw [step] at result
    split at result
    · obtain rfl := Option.some.inj result
      intro input member
      cases member
    · obtain rfl := Option.some.inj result
      exact intact
  | flushBatch =>
    obtain rfl := Option.some.inj result
    intro input member
    cases member
  | readBlock block =>
    obtain rfl := Option.some.inj result
    intro input member
    rw [apart] at disjoint
    simp only [readBlock] at member ⊢
    rcases List.mem_append.mp member with older | added
    · cases place : (acquireInputBuffer poolSize state.inputBufferPoolOffset block.length).1 with
      | none => exact intact input older
      | some start =>
        simp only
        rw [contents_kept (disjoint start place input older)]
        exact intact input older
    · rw [List.mem_singleton] at added
      by_cases short : block.length < blockSize
      · rw [if_pos short] at added
        rw [added]
        rfl
      · rw [if_neg short] at added
        rw [added]
        cases (acquireInputBuffer poolSize state.inputBufferPoolOffset block.length).1 with
        | none => rfl
        | some start => exact contents_writeSlice _ _ _

/-! ## Where blocks come to stand -/

/-- The offset behind so many whole blocks of a file. -/
def offsetAfter (poolSize blockSize : ℕ) : ℕ → ℕ
  | 0 => 0
  | count + 1 => (count % (poolSize / blockSize) + 1) * blockSize

section

variable (pos : 0 < blockSize) (fits : blockSize ≤ poolSize)
include pos fits

theorem places_pos : 0 < poolSize / blockSize := Nat.div_pos fits pos

omit fits in
theorem places_end : poolSize / blockSize * blockSize ≤ poolSize ∧
    poolSize < poolSize / blockSize * blockSize + blockSize :=
  ⟨Nat.div_mul_le_self _ _, Nat.lt_div_mul_add pos⟩

omit fits in
theorem ringPlace_whole (index : ℕ) :
    ringPlace poolSize blockSize (index, blockSize) = index % (poolSize / blockSize) := by
  obtain ⟨_, upper⟩ := @places_end poolSize _ pos
  rw [ringPlace]
  simp only
  rw [if_neg]
  omega

/-- A block that follows whole blocks is read to its place. -/
theorem acquireInputBuffer_place (count size : ℕ) (small : size ≤ blockSize) :
    acquireInputBuffer poolSize (offsetAfter poolSize blockSize count) size =
      (some (ringPlace poolSize blockSize (count, size) * blockSize),
        ringPlace poolSize blockSize (count, size) * blockSize + size) := by
  obtain ⟨lower, upper⟩ := @places_end poolSize _ pos
  have some := places_pos pos fits
  rw [acquireInputBuffer, if_neg (by omega)]
  simp only [ringPlace]
  cases count with
  | zero =>
    rw [offsetAfter, Nat.zero_mod, if_neg (by omega), if_neg (by omega), Nat.zero_mul]
  | succ count =>
    rw [offsetAfter]
    generalize poolSize / blockSize = places at *
    have below := Nat.mod_lt count some
    have next : (count + 1) % places = (count % places + 1) % places := by
      rw [Nat.mod_add_mod]
    by_cases last : count % places + 1 = places
    · -- the place behind the last whole one, or the first one again
      rw [next, last, Nat.mod_self]
      by_cases room : places * blockSize + size ≤ poolSize
      · rw [if_neg (by omega), if_pos ⟨rfl, Nat.succ_pos _, room⟩]
      · rw [if_pos (by omega), if_neg (fun fit => room fit.2.2), Nat.zero_mul]
    · have inside : (count % places + 1) * blockSize + blockSize ≤ places * blockSize := by
        rw [← Nat.succ_mul]
        exact Nat.mul_le_mul_right _ (by omega)
      have unwrapped : (count % places + 1) % places = count % places + 1 :=
        Nat.mod_eq_of_lt (by omega)
      rw [next, unwrapped, if_neg (by omega), if_neg (by omega)]

omit pos fits in
/-- Two blocks have bytes of the ring in common when they have the same place. -/
theorem place_apart {first second size : ℕ} (some : 0 < size) (small : size ≤ blockSize) :
    (first * blockSize + size ≤ second * blockSize ∨
      second * blockSize + blockSize ≤ first * blockSize) ↔ first ≠ second := by
  constructor
  · rintro apart rfl
    omega
  · intro differ
    rcases Nat.lt_or_gt_of_ne differ with less | more
    · left
      have inside : (first + 1) * blockSize ≤ second * blockSize :=
        Nat.mul_le_mul_right _ less
      rw [Nat.succ_mul] at inside
      omega
    · right
      have inside : (second + 1) * blockSize ≤ first * blockSize :=
        Nat.mul_le_mul_right _ more
      rw [Nat.succ_mul] at inside
      omega

end

/-! ## The batch -/

/-- The blocks that were read after the last full batch. -/
def pending (batchSize : ℕ) (blocks : List (ℕ × ℕ)) : List (ℕ × ℕ) :=
  blocks.drop (batchSize * (blocks.length / batchSize))

/-- The slice that the batch keeps for a block. -/
def keptSlice (poolSize blockSize : ℕ) (block : ℕ × ℕ) : Option ℕ :=
  if block.2 = blockSize ∧ blockSize ≤ poolSize then
    some (ringPlace poolSize blockSize block * blockSize)
  else none

/-- A batch that has the buffers for the blocks that were read last. -/
structure Matches (poolSize blockSize batchSize : ℕ) (blocks : List (ℕ × ℕ))
    (state : InputState) : Prop where
  slices : state.batchInputs.map BatchInput.slice =
    (pending batchSize blocks).map (keptSlice poolSize blockSize)
  sizes : ∀ input ∈ state.batchInputs, input.block.length = blockSize

theorem pending_append (batch : 0 < batchSize) (blocks : List (ℕ × ℕ)) (block : ℕ × ℕ) :
    pending batchSize (blocks ++ [block]) =
      if batchSize ≤ (pending batchSize blocks).length + 1 then []
      else pending batchSize blocks ++ [block] := by
  have split := Nat.div_add_mod blocks.length batchSize
  have below := Nat.mod_lt blocks.length batch
  have length : (pending batchSize blocks).length = blocks.length % batchSize := by
    rw [pending, List.length_drop]
    omega
  rw [length, pending, List.length_append, List.length_singleton]
  split
  · have next : (blocks.length + 1) / batchSize = blocks.length / batchSize + 1 := by
      rw [Nat.div_eq_iff batch, Nat.succ_mul, Nat.mul_comm]
      omega
    rw [next, Nat.mul_succ]
    apply List.drop_eq_nil_of_le
    rw [List.length_append, List.length_singleton]
    omega
  · have next : (blocks.length + 1) / batchSize = blocks.length / batchSize := by
      rw [Nat.div_eq_iff batch, Nat.mul_comm]
      omega
    rw [next, List.drop_append_of_le_length (by omega), pending]

/-- One block more is free of conflicts when it has another place than the whole blocks that the
batch still keeps. -/
theorem ringFree_append (batch : 0 < batchSize) (blocks : List (ℕ × ℕ)) (block : ℕ × ℕ) :
    RingFree poolSize blockSize batchSize (blocks ++ [block]) ↔
      RingFree poolSize blockSize batchSize blocks ∧
        (blockSize ≤ poolSize → ∀ earlier ∈ pending batchSize blocks, earlier.2 = blockSize →
          ringPlace poolSize blockSize block ≠ ringPlace poolSize blockSize earlier) := by
  have split := Nat.div_add_mod blocks.length batchSize
  have below := Nat.mod_lt blocks.length batch
  have added : (blocks ++ [block])[blocks.length]? = some block := by simp
  constructor
  · intro free
    constructor
    · intro fits first second earlier later here there less same whole
      have inside := (List.getElem?_eq_some_iff.mp here).1
      have inside' := (List.getElem?_eq_some_iff.mp there).1
      exact free fits first second earlier later (by rw [List.getElem?_append_left inside, here])
        (by rw [List.getElem?_append_left inside', there]) less same whole
    · intro fits earlier member whole
      obtain ⟨index, here⟩ := List.mem_iff_getElem?.mp member
      rw [pending, List.getElem?_drop] at here
      have inside := (List.getElem?_eq_some_iff.mp here).1
      refine free fits _ blocks.length earlier block
        (by rw [List.getElem?_append_left inside, here]) added inside ?_ whole
      rw [Nat.div_eq_iff batch, Nat.mul_comm]
      omega
  · rintro ⟨free, last⟩ fits first second earlier later here there less same whole
    have bound := (List.getElem?_eq_some_iff.mp there).1
    rw [List.length_append, List.length_singleton] at bound
    rw [List.getElem?_append_left (by omega)] at here
    by_cases final : second = blocks.length
    · subst final
      rw [added] at there
      obtain rfl := Option.some.inj there
      refine last fits earlier ?_ whole
      have before := Nat.div_add_mod first batchSize
      rw [same] at before
      refine List.mem_iff_getElem?.mpr
        ⟨first - batchSize * (blocks.length / batchSize), ?_⟩
      rw [pending, List.getElem?_drop, ← here]
      congr 1
      omega
    · rw [List.getElem?_append_left (by omega)] at there
      exact free fits first second earlier later here there less same whole

/-! ## The read loop -/

section

variable (pos : 0 < blockSize) {blocks : List (ℕ × ℕ)} {state : InputState}
  (matching : Matches poolSize blockSize batchSize blocks state) {count : ℕ}
  (offset : blockSize ≤ poolSize → state.inputBufferPoolOffset = offsetAfter poolSize blockSize count)
include pos matching offset

/-- A block is read apart from the batch when its place is not that of a whole block there. -/
theorem apart_iff {block : Buffer} (some : 0 < block.length) (small : block.length ≤ blockSize) :
    apart poolSize state (.readBlock block) ↔
      (blockSize ≤ poolSize → ∀ earlier ∈ pending batchSize blocks, earlier.2 = blockSize →
        ringPlace poolSize blockSize (count, block.length) ≠
          ringPlace poolSize blockSize earlier) := by
  have slices : ∀ kept, (∃ input ∈ state.batchInputs, input.slice = Option.some kept) ↔
      ∃ earlier ∈ pending batchSize blocks, keptSlice poolSize blockSize earlier = Option.some kept := by
    intro kept
    rw [← List.mem_map, matching.slices, List.mem_map]
  by_cases fits : blockSize ≤ poolSize
  · rw [apart, offset fits, acquireInputBuffer_place pos fits count _ small]
    constructor
    · intro disjoint _ earlier member whole
      have keeps : keptSlice poolSize blockSize earlier =
          Option.some (ringPlace poolSize blockSize earlier * blockSize) := by
        rw [keptSlice, if_pos ⟨whole, fits⟩]
      obtain ⟨input, there, slice⟩ := (slices _).mpr ⟨earlier, member, keeps⟩
      have clear := disjoint _ rfl input there _ slice
      rw [matching.sizes input there] at clear
      exact (place_apart some small).mp clear
    · intro free start begins input there kept slice
      obtain rfl := Option.some.inj begins
      obtain ⟨earlier, member, keeps⟩ := (slices kept).mp ⟨input, there, slice⟩
      rw [keptSlice] at keeps
      split at keeps
      · rename_i whole
        obtain rfl := Option.some.inj keeps
        rw [matching.sizes input there]
        exact (place_apart some small).mpr (free fits earlier member whole.1)
      · cases keeps
  · constructor
    · intro _ large
      exact absurd large fits
    · intro _ start _ input there kept slice
      obtain ⟨earlier, _, keeps⟩ := (slices kept).mp ⟨input, there, slice⟩
      rw [keptSlice, if_neg (fun whole => fits whole.2)] at keeps
      cases keeps

/-- A block and the test for a full batch after it. -/
theorem read_matches (batch : 0 < batchSize) {block : Buffer}
    (small : block.length ≤ blockSize) :
    ∃ next, Machine.run (step poolSize blockSize batchSize) state
        [.readBlock block, .flushFullBatch] = some next ∧
      Matches poolSize blockSize batchSize (blocks ++ [(count, block.length)]) next ∧
      (block.length = blockSize → blockSize ≤ poolSize →
        next.inputBufferPoolOffset = offsetAfter poolSize blockSize (count + 1)) := by
  have turned : block.length = blockSize → blockSize ≤ poolSize →
      (readBlock poolSize blockSize state block).inputBufferPoolOffset =
        offsetAfter poolSize blockSize (count + 1) := by
    intro whole fits
    simp only [readBlock]
    rw [offset fits, acquireInputBuffer_place pos fits count _ small, whole,
      ringPlace_whole pos, offsetAfter, Nat.succ_mul]
  have sizes : ∀ input ∈ (readBlock poolSize blockSize state block).batchInputs,
      input.block.length = blockSize := by
    intro input member
    simp only [readBlock] at member
    rcases List.mem_append.mp member with older | added
    · exact matching.sizes input older
    · rw [List.mem_singleton] at added
      split at added
      · rw [added]
        exact padBlock_length blockSize block small
      · rename_i long
        rw [added]
        exact Nat.le_antisymm small (Nat.not_lt.mp long)
  have slices : (readBlock poolSize blockSize state block).batchInputs.map BatchInput.slice =
      (pending batchSize blocks ++ [(count, block.length)]).map (keptSlice poolSize blockSize) := by
    simp only [readBlock]
    rw [List.map_append, List.map_append, matching.slices, List.map_singleton, List.map_singleton]
    congr 2
    rw [keptSlice]
    by_cases short : block.length < blockSize
    · rw [if_pos short, if_neg (fun whole => Nat.ne_of_lt short whole.1)]
    · have whole : block.length = blockSize := by omega
      rw [if_neg short]
      by_cases fits : blockSize ≤ poolSize
      · rw [offset fits, acquireInputBuffer_place pos fits count _ small, if_pos ⟨whole, fits⟩]
      · rw [if_neg (fun both => fits both.2), acquireInputBuffer, if_pos (by omega)]
  have length : (readBlock poolSize blockSize state block).batchInputs.length =
      (pending batchSize blocks).length + 1 := by
    have same := congrArg List.length slices
    rwa [List.length_map, List.length_map, List.length_append, List.length_singleton] at same
  simp only [Machine.run_cons, step, Option.bind_some, Machine.run_nil]
  by_cases full : batchSize ≤ (pending batchSize blocks).length + 1
  · rw [if_pos (by rw [length]; exact full)]
    refine ⟨_, rfl, ⟨?_, ?_⟩, turned⟩
    · rw [pending_append batch, if_pos full]
      rfl
    · intro input member
      cases member
  · rw [if_neg (by rw [length]; exact full)]
    refine ⟨_, rfl, ⟨?_, sizes⟩, turned⟩
    rw [pending_append batch, if_neg full]
    exact slices

end

/-- The blocks of a file, with their places. -/
def cutPlaces (blockSize first : ℕ) (contents : Buffer) : List (ℕ × ℕ) :=
  ((cut blockSize contents).zipIdx first).map fun piece => (piece.2, piece.1.length)

theorem cutPlaces_eq (pos : 0 < blockSize) (contents : Buffer) (first : ℕ) :
    cutPlaces blockSize first contents =
      (List.range ((contents.length + blockSize - 1) / blockSize)).map fun index =>
        (first + index, min blockSize (contents.length - index * blockSize)) := by
  rw [← cut_length blockSize pos]
  induction contents using cut.induct blockSize generalizing first with
  | case1 contents empty =>
    have nil : contents = [] := List.length_eq_zero_iff.mp (by omega)
    subst nil
    rw [cutPlaces, cut_nil]
    rfl
  | case2 contents nonempty ih =>
    rw [cutPlaces, cut_cons pos (by omega), List.zipIdx_cons, List.map_cons, List.length_cons,
      List.range_succ_eq_map, List.map_cons, List.map_map, Nat.zero_mul, Nat.sub_zero,
      List.length_take]
    congr 1
    change cutPlaces blockSize (first + 1) (contents.drop blockSize) = _
    rw [ih]
    apply List.map_congr_left
    intro index _
    simp only [Function.comp_apply, Nat.succ_eq_add_one, List.length_drop, Nat.succ_mul]
    congr 1
    · omega
    · congr 1
      omega

theorem cutPlaces_zero (pos : 0 < blockSize) (contents : Buffer) :
    cutPlaces blockSize 0 contents = filePlaces blockSize contents.length := by
  rw [cutPlaces_eq pos, filePlaces]
  simp only [Nat.zero_add]

/-- The blocks of a file, read one behind the other. -/
theorem read_cut (pos : 0 < blockSize) (batch : 0 < batchSize) (contents : Buffer)
    {count : ℕ} {blocks : List (ℕ × ℕ)} {state : InputState}
    (matching : Matches poolSize blockSize batchSize blocks state)
    (offset : blockSize ≤ poolSize →
      state.inputBufferPoolOffset = offsetAfter poolSize blockSize count) :
    ∃ last, Machine.run (step poolSize blockSize batchSize) state
        ((cut blockSize contents).flatMap fun block => [.readBlock block, .flushFullBatch]) =
          some last ∧
      Matches poolSize blockSize batchSize (blocks ++ cutPlaces blockSize count contents) last ∧
      (RingFree poolSize blockSize batchSize blocks ∧
        Machine.Guarded (step poolSize blockSize batchSize) (apart poolSize) state
          ((cut blockSize contents).flatMap fun block => [.readBlock block, .flushFullBatch]) ↔
        RingFree poolSize blockSize batchSize (blocks ++ cutPlaces blockSize count contents)) := by
  induction contents using cut.induct blockSize generalizing count blocks state with
  | case1 contents empty =>
    have nil : contents = [] := List.length_eq_zero_iff.mp (by omega)
    subst nil
    rw [cutPlaces, cut_nil]
    refine ⟨state, rfl, by rw [List.zipIdx_nil, List.map_nil, List.append_nil]; exact matching, ?_⟩
    rw [List.zipIdx_nil, List.map_nil, List.append_nil, List.flatMap_nil]
    exact and_iff_left trivial
  | case2 contents nonempty ih =>
    have some : 0 < (contents.take blockSize).length := by
      rw [List.length_take]
      omega
    have small : (contents.take blockSize).length ≤ blockSize := by
      rw [List.length_take]
      omega
    have places : cutPlaces blockSize count contents = (count, (contents.take blockSize).length) ::
        cutPlaces blockSize (count + 1) (contents.drop blockSize) := by
      rw [cutPlaces, cut_cons pos (by omega), List.zipIdx_cons, List.map_cons]
      rfl
    obtain ⟨next, taken, nextMatching, turned⟩ :=
      read_matches pos matching offset batch small
    have free := apart_iff pos matching offset some small
    have split : blocks ++ cutPlaces blockSize count contents =
        (blocks ++ [(count, (contents.take blockSize).length)]) ++
          cutPlaces blockSize (count + 1) (contents.drop blockSize) := by
      rw [places, List.append_assoc, List.singleton_append]
    rw [cut_cons pos (by omega), List.flatMap_cons, Machine.guarded_append,
      Machine.run_append, taken, split]
    have guardedBlock : Machine.Guarded (step poolSize blockSize batchSize) (apart poolSize) state
        [.readBlock (contents.take blockSize), .flushFullBatch] ↔
          apart poolSize state (.readBlock (contents.take blockSize)) := by
      constructor
      · intro guarded
        exact (guarded _ rfl).1
      · intro disjoint middle _
        exact ⟨disjoint, fun _ _ => ⟨trivial, trivial⟩⟩
    by_cases more : blockSize ≤ contents.length
    · have whole : (contents.take blockSize).length = blockSize := by
        rw [List.length_take]
        omega
      obtain ⟨last, reached, lastMatching, exact⟩ :=
        ih nextMatching (turned whole)
      refine ⟨last, reached, lastMatching, ?_⟩
      rw [← exact, ringFree_append batch, guardedBlock, free, and_assoc]
      simp only [Option.some.injEq, forall_eq']
    · -- a short block is the last one
      have done : contents.drop blockSize = [] := List.drop_eq_nil_of_le (by omega)
      rw [done, cutPlaces, cut_nil, List.zipIdx_nil, List.map_nil, List.append_nil]
      refine ⟨next, rfl, nextMatching, ?_⟩
      rw [ringFree_append batch, guardedBlock, free]
      simp only [List.flatMap_nil, Machine.Guarded, implies_true, and_true]

theorem Matches.reset {blocks : List (ℕ × ℕ)} {state : InputState}
    (matching : Matches poolSize blockSize batchSize blocks state) :
    Matches poolSize blockSize batchSize blocks { state with inputBufferPoolOffset := 0 } :=
  ⟨matching.slices, matching.sizes⟩

/-- A whole file. The ring begins anew, and the batch goes on. -/
theorem read_file (pos : 0 < blockSize) (batch : 0 < batchSize) (file : Buffer)
    {blocks : List (ℕ × ℕ)} {state : InputState}
    (matching : Matches poolSize blockSize batchSize blocks state) :
    ∃ last, Machine.run (step poolSize blockSize batchSize) state (fileSteps blockSize file) =
        some last ∧
      Matches poolSize blockSize batchSize (blocks ++ filePlaces blockSize file.length) last ∧
      (RingFree poolSize blockSize batchSize blocks ∧
        Machine.Guarded (step poolSize blockSize batchSize) (apart poolSize) state
          (fileSteps blockSize file) ↔
        RingFree poolSize blockSize batchSize (blocks ++ filePlaces blockSize file.length)) := by
  have harmless : ∀ state, Machine.Guarded (step poolSize blockSize batchSize) (apart poolSize)
      state [.resetInputBufferPool] := fun _ _ _ => ⟨trivial, trivial⟩
  rw [← cutPlaces_zero pos]
  by_cases empty : file.length = 0
  · have nil : file = [] := List.length_eq_zero_iff.mp empty
    rw [fileSteps, if_pos empty, nil, cutPlaces, cut_nil, List.zipIdx_nil, List.map_nil,
      List.append_nil]
    exact ⟨_, rfl, matching.reset, and_iff_left (harmless state)⟩
  · obtain ⟨last, reached, lastMatching, exact⟩ := @read_cut poolSize _ _ pos batch file 0
      blocks _ matching.reset fun _ => rfl
    rw [fileSteps, if_neg empty]
    refine ⟨{ last with inputBufferPoolOffset := 0 }, ?_, lastMatching.reset, ?_⟩
    · rw [List.cons_append, Machine.run_cons, step, Option.bind_some, Machine.run_append, reached]
      rfl
    · rw [← exact, List.cons_append]
      constructor
      · rintro ⟨free, guarded⟩
        have later := (guarded _ rfl).2
        rw [Machine.guarded_append] at later
        exact ⟨free, later.1⟩
      · rintro ⟨free, guarded⟩
        refine ⟨free, fun next taken => ⟨trivial, ?_⟩⟩
        obtain rfl := Option.some.inj taken
        rw [Machine.guarded_append]
        exact ⟨guarded, fun middle _ => harmless middle⟩

/-- All files. -/
theorem read_files (pos : 0 < blockSize) (batch : 0 < batchSize) (files : List Buffer)
    {blocks : List (ℕ × ℕ)} {state : InputState}
    (matching : Matches poolSize blockSize batchSize blocks state) :
    RingFree poolSize blockSize batchSize blocks ∧
        Machine.Guarded (step poolSize blockSize batchSize) (apart poolSize) state
          (createSteps blockSize files) ↔
      RingFree poolSize blockSize batchSize
        (blocks ++ (files.map List.length).flatMap (filePlaces blockSize)) := by
  induction files generalizing blocks state with
  | nil =>
    rw [List.map_nil, List.flatMap_nil, List.append_nil]
    exact and_iff_left fun _ _ => ⟨trivial, trivial⟩
  | cons file rest ih =>
    obtain ⟨last, reached, lastMatching, exact⟩ := @read_file poolSize _ _ pos batch file
      blocks state matching
    rw [List.map_cons, List.flatMap_cons, ← List.append_assoc, ← ih lastMatching,
      ← exact, and_assoc, createSteps, List.flatMap_cons, List.append_assoc,
      Machine.guarded_append, reached]
    simp only [Option.some.injEq, forall_eq', createSteps]

end

end InputRing

namespace InputOptions

open InputRing

variable (options : InputOptions)

/-- The size of the pool in a create with files of these sizes. -/
def poolSize (sizes : List ℕ) : ℕ :=
  ensureInputPool options.earlierPool
    ((sizes.map fun size => (size + options.blockSize - 1) / options.blockSize).sum *
      options.blockSize)

/-- No slice is handed out that has a byte of a buffer that the batch still keeps, and until a
batch is folded all its buffers hold their blocks. -/
def InputsKept (files : List Buffer) : Prop :=
  Machine.Guarded
      (step (options.poolSize (files.map List.length)) options.blockSize options.BATCH_SIZE)
      (apart (options.poolSize (files.map List.length))) InputState.start
      (createSteps options.blockSize files) ∧
    Machine.Throughout
      (step (options.poolSize (files.map List.length)) options.blockSize options.BATCH_SIZE)
      Intact InputState.start (createSteps options.blockSize files)

/-- No two blocks of one batch, the earlier a whole block, have the same place in the ring. -/
def PlacesDiffer (sizes : List ℕ) : Prop :=
  RingFree (options.poolSize sizes) options.blockSize options.BATCH_SIZE
    (sizes.flatMap (filePlaces options.blockSize))

theorem guarded_iff (files : List Buffer) :
    Machine.Guarded
        (step (options.poolSize (files.map List.length)) options.blockSize options.BATCH_SIZE)
        (apart (options.poolSize (files.map List.length))) InputState.start
        (createSteps options.blockSize files) ↔
      options.PlacesDiffer (files.map List.length) := by
  have pos : 0 < options.blockSize := by
    have large := options.blockSize_large
    omega
  have batch : 0 < options.BATCH_SIZE := by
    rw [BATCH_SIZE]
    split
    · decide
    · omega
  have free : RingFree (options.poolSize (files.map List.length)) options.blockSize
      options.BATCH_SIZE [] := by
    intro _ _ _ _ _ here
    cases here
  have empty : Matches (options.poolSize (files.map List.length)) options.blockSize
      options.BATCH_SIZE [] InputState.start := by
    refine ⟨by rw [pending, List.drop_nil, List.map_nil, InputState.start, List.map_nil], ?_⟩
    intro _ member
    cases member
  have exact := read_files pos batch files empty
  rw [and_iff_right free, List.nil_append] at exact
  exact exact

/-- Whatever the files hold, the buffers of each batch keep their blocks exactly when no two blocks
of a batch, the earlier a whole block, have the same place in the ring. -/
theorem inputsKept_iff (files : List Buffer) :
    options.InputsKept files ↔ options.PlacesDiffer (files.map List.length) := by
  rw [InputsKept, guarded_iff]
  refine and_iff_left_of_imp fun differ => ?_
  refine Machine.Guarded.throughout intact_step ?_ ((options.guarded_iff files).mpr differ)
  intro input member
  cases member

/-- Blocks of one kibibyte, and no environment variable set. -/
def kibibyteBlocks : InputOptions where
  blockSize := 1024
  PAR3_BATCH_SIZE := 0
  earlierPool := none
  blockSize_large := Nat.le_refl 1024

theorem kibibyteBlocks_places : [1024, 1024].flatMap (filePlaces 1024) = [(0, 1024), (0, 1024)] ∧
    1024 ≤ kibibyteBlocks.poolSize [1024, 1024] := by
  decide

/-- Two files of one block each: the second is read over the first, which the batch still
keeps. -/
theorem second_file_overwrites : ¬ ∀ (options : InputOptions) (files : List Buffer),
    options.InputsKept files := by
  intro always
  have kept := always kibibyteBlocks [List.replicate 1024 0, List.replicate 1024 1]
  rw [InputsKept, guarded_iff] at kept
  have differ := kept.1
  simp only [List.map_cons, List.map_nil, List.length_replicate] at differ
  have free := differ kibibyteBlocks_places.2 0 1 (0, 1024) (0, 1024)
  rw [kibibyteBlocks, kibibyteBlocks_places.1] at free
  exact free rfl rfl (by decide) (by decide) rfl rfl

end InputOptions

end Par3
