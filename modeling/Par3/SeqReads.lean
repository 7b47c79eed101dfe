import Par3.SeqReaderContract

/-!
# The reads of a file

A read ends before the first slice whose required part would be cut off, so that the required part
of every slice lies in one read. What is read so far lists the slices that start in it, each once.
-/
namespace Par3

/-- The chunks of a piece; without any, the consumer has nothing to do. -/
def SeqPiece.listed (piece : SeqPiece) : List ℕ := piece.chunks.getD []

namespace SeqConfig

/-- The number of slices that start below a position. -/
def slicesBelow (sliceLen pos : ℕ) : ℕ := (pos + sliceLen - 1) / sliceLen

/-- The required part of a slice. -/
def requiredPart (cfg : SeqConfig) (file : ChunkFile) (slicePos : ℕ) : Buffer :=
  slice file.content (slicePos * cfg.reqSliceLen)
    (min (slicePos * cfg.reqSliceLen + cfg.reqChunkLen) file.size)

/-- What the consumer passes on of a piece, each part with the slice that it starts; the first chunk
says which slice that is. There is nothing to return where it throws. -/
def passChunks (sliceSize chunkSize size : ℕ) (piece : SeqPiece) :
    List ℕ → Option ℕ → Option (List (ℕ × Buffer))
  | [], _ => some []
  | chunk :: chunks, slicePos => do
    let slicePos ← slicePos <|>
      if (piece.pos + chunk) % sliceSize = 0 then some ((piece.pos + chunk) / sliceSize) else none
    let calls ← passChunks sliceSize chunkSize size piece chunks (some (slicePos + 1))
    return (slicePos, slice piece.bytes chunk (min (chunk + chunkSize) size)) :: calls

theorem slices_eq {sliceLen pos count : ℕ} (slices : 0 < sliceLen) (covers : pos ≤ count * sliceLen)
    (least : count * sliceLen < pos + sliceLen) : slicesBelow sliceLen pos = count := by
  rw [slicesBelow, Nat.div_eq_iff slices]
  constructor <;> omega

theorem slices_bounds {sliceLen : ℕ} (pos : ℕ) (slices : 0 < sliceLen) :
    pos ≤ slicesBelow sliceLen pos * sliceLen ∧
      slicesBelow sliceLen pos * sliceLen < pos + sliceLen := by
  rw [slicesBelow]
  have split := Nat.div_add_mod (pos + sliceLen - 1) sliceLen
  have below := Nat.mod_lt (pos + sliceLen - 1) slices
  rw [Nat.mul_comm] at split
  constructor <;> omega

variable {cfg : SeqConfig}

theorem slicesBelow_zero {sliceLen : ℕ} (slices : 0 < sliceLen) : slicesBelow sliceLen 0 = 0 :=
  slices_eq slices (Nat.zero_le _) (by omega)

/-- The loop lists the slices that start behind an offset until it has read enough, is behind the end
or would cut a required part; its turns suffice. -/
theorem chunkLoop_spec (slices : 0 < cfg.reqSliceLen) (maxSize turns readSize : ℕ)
    (chunks : List ℕ) (enough : cfg.readSize ≤ turns + readSize) : ∃ count,
      cfg.chunkLoop maxSize turns readSize chunks =
        (readSize + count * cfg.reqSliceLen,
          chunks ++ (List.range count).map fun i => readSize + i * cfg.reqSliceLen) ∧
      (∀ i < count, readSize + i * cfg.reqSliceLen < cfg.readSize ∧
        min maxSize (readSize + i * cfg.reqSliceLen + cfg.reqChunkLen) ≤ cfg.readSize ∧
        (readSize < maxSize → readSize + i * cfg.reqSliceLen < maxSize)) ∧
      (count = 0 → cfg.readSize ≤ readSize ∨
        cfg.readSize < min maxSize (readSize + cfg.reqChunkLen)) := by
  induction turns generalizing readSize chunks with
  | zero =>
    refine ⟨0, by simp [chunkLoop], fun i less => absurd less (Nat.not_lt_zero i), fun _ => Or.inl ?_⟩
    omega
  | succ turns ih =>
    rw [chunkLoop]
    by_cases more : readSize < cfg.readSize
    · rw [if_pos more]
      by_cases cut : min maxSize (readSize + cfg.reqChunkLen) > cfg.readSize
      · rw [if_pos cut]
        exact ⟨0, by simp, fun i less => absurd less (Nat.not_lt_zero i), fun _ => Or.inr cut⟩
      · rw [if_neg cut]
        by_cases last : readSize + cfg.reqSliceLen ≥ maxSize
        · rw [if_pos last]
          refine ⟨1, by simp, fun i less => ?_, fun none => absurd none Nat.one_ne_zero⟩
          obtain rfl : i = 0 := by omega
          rw [Nat.zero_mul, Nat.add_zero]
          exact ⟨more, by omega, id⟩
        · rw [if_neg last]
          obtain ⟨count, same, inside, -⟩ := ih (readSize + cfg.reqSliceLen)
            (chunks ++ [readSize]) (by omega)
          refine ⟨count + 1, ?_, fun i less => ?_, fun none => absurd none (Nat.succ_ne_zero _)⟩
          · rw [same, List.range_succ_eq_map, List.map_cons, List.map_map, List.append_assoc,
              List.singleton_append, Nat.zero_mul, Nat.add_zero, Nat.succ_mul, Nat.add_assoc,
              Nat.add_comm cfg.reqSliceLen]
            congr 3
            refine List.map_congr_left fun i _ => ?_
            rw [Function.comp_apply, Nat.succ_mul]
            omega
          · cases i with
            | zero =>
              rw [Nat.zero_mul, Nat.add_zero]
              exact ⟨more, by omega, id⟩
            | succ i =>
              obtain ⟨before, fits, short⟩ := inside i (by omega)
              have next : readSize + (i + 1) * cfg.reqSliceLen =
                  readSize + cfg.reqSliceLen + i * cfg.reqSliceLen := by
                rw [Nat.add_mul, Nat.one_mul]
                omega
              rw [next]
              exact ⟨before, fits, fun _ => short (by omega)⟩
    · rw [if_neg more]
      exact ⟨0, by simp, fun i less => absurd less (Nat.not_lt_zero i), fun _ => Or.inl (by omega)⟩

/-- What a read from a position on is good for, when the file is as large as it says. -/
structure Placed (cfg : SeqConfig) (size pos length : ℕ) (listed : List ℕ) : Prop where
  progress : 0 < length
  bounded : length ≤ cfg.readSize
  inside : pos + length ≤ size
  count : slicesBelow cfg.reqSliceLen (pos + length) =
    slicesBelow cfg.reqSliceLen pos + listed.length
  starts : listed.map (pos + ·) =
    (List.range' (slicesBelow cfg.reqSliceLen pos) listed.length).map (· * cfg.reqSliceLen)
  whole : ∀ chunk ∈ listed, pos + chunk < size ∧
    chunk + min cfg.reqChunkLen (size - (pos + chunk)) ≤ length

/-- A read of the chosen length, which ends with the file at the latest. -/
theorem readLength_placed (slices : 0 < cfg.reqSliceLen) (reads : 0 < cfg.readSize)
    (within : cfg.reqChunkLen ≤ cfg.reqSliceLen) (fits : cfg.reqChunkLen ≤ cfg.readSize)
    {pos size : ℕ} (unread : pos < size) :
    Placed cfg size pos (min (cfg.readLength pos size).1 (size - pos))
      ((cfg.readLength pos size).2.getD []) := by
  obtain ⟨above, below⟩ := slices_bounds pos slices
  have nonzero : cfg.reqSliceLen ≠ 0 := by omega
  rw [readLength, if_neg nonzero]
  dsimp only
  rw [← slicesBelow]
  set next := slicesBelow cfg.reqSliceLen pos with first
  by_cases behind : next * cfg.reqSliceLen ≥ size
  · rw [if_pos behind]
    dsimp only [Option.getD_none]
    refine ⟨by omega, by omega, by omega, ?_, rfl, fun chunk listed => absurd listed List.not_mem_nil⟩
    rw [← first, List.length_nil, Nat.add_zero]
    exact slices_eq slices (by omega) (by omega)
  · rw [if_neg behind]
    obtain ⟨count, same, inside, none⟩ := chunkLoop_spec slices (size - pos) cfg.readSize
      (next * cfg.reqSliceLen - pos) [] (by omega)
    rw [same]
    dsimp only [Option.getD_some]
    rw [List.nil_append]
    set offset := next * cfg.reqSliceLen - pos with apart
    have positive : 0 < offset + count * cfg.reqSliceLen := by
      by_contra zero
      have noCount : count = 0 := by
        by_contra some
        have := Nat.mul_pos (Nat.pos_of_ne_zero some) slices
        omega
      rcases none noCount with far | cut
      · omega
      · omega
    have scaled : (next + count) * cfg.reqSliceLen = pos + (offset + count * cfg.reqSliceLen) := by
      rw [Nat.add_mul]
      omega
    have before : count ≠ 0 → offset + count * cfg.reqSliceLen <
        min (min cfg.readSize (offset + count * cfg.reqSliceLen)) (size - pos) +
          cfg.reqSliceLen := by
      intro some
      obtain ⟨less, -, short⟩ := inside (count - 1) (by omega)
      have inFile := short (by omega)
      have last : offset + count * cfg.reqSliceLen =
          offset + (count - 1) * cfg.reqSliceLen + cfg.reqSliceLen := by
        rw [Nat.sub_mul, Nat.one_mul]
        have := Nat.le_mul_of_pos_left cfg.reqSliceLen (Nat.pos_of_ne_zero some)
        omega
      omega
    refine ⟨by omega, by omega, by omega, ?_, ?_, ?_⟩
    · rw [List.length_map, List.length_range, ← first]
      refine slices_eq slices (by omega) ?_
      by_cases noCount : count = 0
      · rw [noCount, Nat.add_zero]
        omega
      · have := before noCount
        omega
    · rw [List.length_map, List.length_range, ← first, List.range'_eq_map_range, List.map_map, List.map_map]
      refine List.map_congr_left fun i _ => ?_
      rw [Function.comp_apply, Function.comp_apply, Nat.add_mul]
      omega
    · intro chunk listed
      obtain ⟨i, less, rfl⟩ := List.mem_map.mp listed
      obtain ⟨start, part, short⟩ := inside i (List.mem_range.mp less)
      have inFile := short (by omega)
      have step : (i + 1) * cfg.reqSliceLen ≤ count * cfg.reqSliceLen :=
        Nat.mul_le_mul_right _ (List.mem_range.mp less)
      rw [Nat.add_mul, Nat.one_mul] at step
      constructor
      · omega
      · omega

/-! ## The pieces of a file -/

/-- The pieces that the consumer was given of a file. -/
def piecesOf (given : List SeqPiece) (file : ℕ) : List SeqPiece :=
  given.filter fun piece => decide (piece.file = file)

/-- Reads of a file that follow each other up to a position. -/
inductive Reads (cfg : SeqConfig) (file : ChunkFile) : List SeqPiece → ℕ → Prop
  | start : Reads cfg file [] 0
  | next {pieces : List SeqPiece} {piece : SeqPiece} {pos length : ℕ} (before : Reads cfg file pieces pos)
      (placed : Placed cfg file.size pos length piece.listed) (follows : piece.pos = pos)
      (bytes : piece.bytes = slice file.content pos (pos + length))
      (whole : piece.bytes.length = length) : Reads cfg file (pieces ++ [piece]) (pos + length)

theorem Reads.contiguous {file : ChunkFile} {pieces : List SeqPiece} {pos : ℕ}
    (reads : Reads cfg file pieces pos) : (pieces.flatMap SeqPiece.bytes).length = pos ∧
      ∀ before piece after, pieces = before ++ piece :: after →
        piece.pos = (before.flatMap SeqPiece.bytes).length := by
  induction reads with
  | start => exact ⟨rfl, fun before piece after same => by simp at same⟩
  | next before placed follows bytes whole ih =>
    obtain ⟨length, earlier⟩ := ih
    constructor
    · rw [List.flatMap_append, List.length_append, length, List.flatMap_singleton, whole]
    · intro first piece after same
      rcases List.eq_nil_or_concat after with rfl | ⟨between, last, rfl⟩
      · obtain ⟨rfl, rest⟩ := List.append_inj' same rfl
        rw [List.singleton_inj] at rest
        rw [← rest, follows, length]
      · rw [List.concat_eq_append, ← List.cons_append, ← List.append_assoc] at same
        exact earlier first piece between (List.append_inj' same rfl).1

theorem Reads.placed {file : ChunkFile} {pieces : List SeqPiece} {pos : ℕ}
    (reads : Reads cfg file pieces pos) : ∀ piece ∈ pieces,
      Placed cfg file.size piece.pos piece.bytes.length piece.listed ∧
        piece.bytes = slice file.content piece.pos (piece.pos + piece.bytes.length) := by
  induction reads with
  | start => exact fun piece member => absurd member List.not_mem_nil
  | next before placed follows bytes whole ih =>
    intro piece member
    rcases List.mem_append.mp member with old | new
    · exact ih piece old
    · rw [List.mem_singleton.mp new, follows, whole]
      exact ⟨placed, bytes⟩

/-- The slices that were started are those below the position, in order. -/
theorem Reads.starts {file : ChunkFile} {pieces : List SeqPiece} {pos : ℕ}
    (slices : 0 < cfg.reqSliceLen) (reads : Reads cfg file pieces pos) :
    pieces.flatMap (fun piece => piece.listed.map (piece.pos + ·)) =
      (List.range (slicesBelow cfg.reqSliceLen pos)).map (· * cfg.reqSliceLen) := by
  induction reads with
  | start =>
    rw [slicesBelow_zero slices]
    rfl
  | next before placed follows bytes whole ih =>
    rw [List.flatMap_append, ih, List.flatMap_singleton, follows, placed.starts,
      placed.count, List.range_eq_range', List.range_eq_range', ← List.map_append,
      ← List.range'_append_1, Nat.zero_add]

theorem passChunks_placed {file : ChunkFile} {piece : SeqPiece} (slices : 0 < cfg.reqSliceLen)
    (bytes : piece.bytes = slice file.content piece.pos (piece.pos + piece.bytes.length))
    (inside : piece.pos + piece.bytes.length ≤ file.size) (chunks : List ℕ) (first : ℕ)
    (starts : chunks.map (piece.pos + ·) =
      (List.range' first chunks.length).map (· * cfg.reqSliceLen))
    (whole : ∀ chunk ∈ chunks, chunk + min cfg.reqChunkLen (file.size - (piece.pos + chunk)) ≤
      piece.bytes.length) (slicePos : Option ℕ) (same : slicePos = none ∨ slicePos = some first) :
    passChunks cfg.reqSliceLen cfg.reqChunkLen file.size piece chunks slicePos =
      some ((List.range' first chunks.length).map fun slicePos =>
        (slicePos, cfg.requiredPart file slicePos)) := by
  induction chunks generalizing first slicePos with
  | nil => rfl
  | cons chunk chunks ih =>
    rw [List.map_cons, List.length_cons, List.range'_succ, List.map_cons] at starts
    obtain ⟨start, rest⟩ := List.cons.inj starts
    have known : (slicePos <|> if (piece.pos + chunk) % cfg.reqSliceLen = 0 then
        some ((piece.pos + chunk) / cfg.reqSliceLen) else none) = some first := by
      rcases same with rfl | rfl
      · rw [start, if_pos (Nat.mul_mod_left _ _), Nat.mul_div_cancel _ slices]
        rfl
      · rfl
    have part : slice piece.bytes chunk (min (chunk + cfg.reqChunkLen) file.size) =
        cfg.requiredPart file first := by
      have fits := whole chunk List.mem_cons_self
      rw [requiredPart, ← start, bytes, slice, slice, slice, List.drop_take, List.take_take,
        List.drop_drop]
      congr 1
      omega
    rw [passChunks, known, Option.bind_eq_bind, Option.bind_some,
      ih (first + 1) rest (fun other member => whole other (List.mem_cons_of_mem _ member))
        _ (Or.inr rfl), Option.bind_eq_bind, Option.bind_some, part, List.length_cons, List.range'_succ,
      List.map_cons]
    rfl

/-- The consumer passes on the required part of every slice below the position, each once. -/
theorem Reads.passed {file : ChunkFile} {pieces : List SeqPiece} {pos : ℕ}
    (slices : 0 < cfg.reqSliceLen) (reads : Reads cfg file pieces pos) :
    (pieces.mapM fun piece =>
        passChunks cfg.reqSliceLen cfg.reqChunkLen file.size piece piece.listed none).map
      List.flatten = some ((List.range (slicesBelow cfg.reqSliceLen pos)).map fun slicePos =>
        (slicePos, cfg.requiredPart file slicePos)) := by
  induction reads with
  | start =>
    rw [slicesBelow_zero slices]
    rfl
  | @next pieces piece pos length before placed follows bytes whole ih =>
    obtain ⟨calls, passed, flat⟩ := Option.map_eq_some_iff.mp ih
    have last := passChunks_placed slices (by rw [follows, whole]; exact bytes)
      (by rw [follows, whole]; exact placed.inside) piece.listed
      (slicesBelow cfg.reqSliceLen pos) (by rw [follows]; exact placed.starts)
      (fun chunk member => by rw [follows, whole]; exact (placed.whole chunk member).2)
      none (Or.inl rfl)
    rw [List.mapM_append, passed, List.mapM_cons, List.mapM_nil, last]
    simp only [Option.pure_def, Option.bind_eq_bind, Option.bind_some, Option.map_some,
      List.flatten_append, List.flatten_singleton]
    rw [flat, placed.count, List.range_eq_range', List.range_eq_range', ← List.map_append,
      ← List.range'_append_1, Nat.zero_add]

/-! ## A run -/

/-- Every file is read from its start on, and files that are not closed have something left. -/
structure Ahead (cfg : SeqConfig) (state : SeqState) (files : List ℕ) : Prop where
  reads : ∀ file, Reads cfg (cfg.file file) (piecesOf state.given file) (state.pos file)
  unread : ∀ file ∈ files, state.pos file < (cfg.file file).size

/-- The request, if it is a read, is the one that the position asks for. -/
structure Listed (cfg : SeqConfig) (state : SeqState) : Prop extends
    Ahead cfg state ((state.fileQueue ++ unopened state.request ++ state.openFiles).filter
      fun file => decide (file ∉ drained state.request)) where
  asked : ∀ file buffer size chunks, state.request = some (.reading file buffer size chunks) →
    (size, chunks) = cfg.readLength (state.pos file) (cfg.file file).size

theorem doRead_listed {state : SeqState} (ahead : Ahead cfg state (state.fileQueue ++ state.openFiles))
    (file : ℕ) (buffer : ReadBuffer) : Listed cfg (cfg.doRead state file buffer) := by
  refine ⟨⟨ahead.reads, fun other member => ahead.unread other ?_⟩, ?_⟩
  · simpa [doRead, unopened, drained] using member
  · rintro other held size chunks ⟨⟩
    rfl

theorem readIndex_listed {state : SeqState} (ahead : Ahead cfg state (state.fileQueue ++ state.openFiles))
    (quiet : state.request = none) (index : ℕ) (buffer : ReadBuffer) :
    Listed cfg (cfg.readIndex state index buffer) := by
  rw [readIndex]
  split
  case h_1 file there =>
    refine doRead_listed ?_ file buffer
    refine ⟨ahead.reads, fun other member => ahead.unread other ?_⟩
    rw [List.mem_append] at member ⊢
    refine member.imp_right fun opened => ?_
    rcases List.mem_cons.mp opened with rfl | other
    · exact List.mem_of_getElem? there
    · exact List.mem_of_mem_eraseIdx other
  case h_2 =>
    refine ⟨⟨ahead.reads, fun other member => ahead.unread other ?_⟩, ?_⟩
    · simpa [quiet, unopened, drained] using member
    · rw [quiet]
      intro other held size chunks flies
      cases flies

theorem readOther_listed {state : SeqState} (ahead : Ahead cfg state (state.fileQueue ++ state.openFiles))
    (quiet : state.request = none) (buffer : ReadBuffer) :
    Listed cfg (cfg.readOther state buffer) := by
  have still : ∀ after : SeqState, after.given = state.given → after.pos = state.pos →
      after.fileQueue = state.fileQueue → after.openFiles = state.openFiles →
        after.request = none → Listed cfg after := by
    intro after given pos fileQueue openFiles none
    refine ⟨⟨by rw [given, pos]; exact ahead.reads, fun other member => ?_⟩, ?_⟩
    · rw [pos]
      apply ahead.unread other
      simpa [none, unopened, drained, fileQueue, openFiles] using member
    · rw [none]
      intro other held size chunks flies
      cases flies
  rw [readOther]
  dsimp only
  split
  · exact readIndex_listed ahead quiet _ buffer
  · split
    case h_1 file fileQueue more =>
      refine ⟨⟨ahead.reads, fun other member => ahead.unread other ?_⟩, fun _ _ _ _ flies => by cases flies⟩
      rw [more]
      simpa [unopened, drained, or_left_comm] using member
    case h_2 =>
      split
      · exact readIndex_listed ahead quiet _ buffer
      · split
        · exact still _ rfl rfl rfl rfl quiet
        · exact still _ rfl rfl rfl rfl quiet

theorem getBuf_shape (cfg : SeqConfig) (state : SeqState) : ∃ buf bufCount allocated, (cfg.getBuf state).2 =
    { state with buf := buf, bufCount := bufCount, allocated := allocated } := by
  rw [getBuf]
  split
  · exact ⟨_, _, state.allocated, rfl⟩
  · split
    · exact ⟨_, _, _, rfl⟩
    · exact ⟨_, _, state.allocated, rfl⟩

theorem readNext_listed {state : SeqState} (ahead : Ahead cfg state (state.fileQueue ++ state.openFiles))
    (quiet : state.request = none) : Listed cfg (cfg.readNext state) := by
  obtain ⟨buf, bufCount, allocated, shape⟩ := getBuf_shape cfg state
  rw [readNext]
  split
  case h_1 after taken =>
    rw [taken] at shape
    dsimp only at shape
    subst shape
    refine ⟨⟨ahead.reads, fun other member => ahead.unread other ?_⟩, ?_⟩
    · simpa [quiet, unopened, drained] using member
    · dsimp only
      rw [quiet]
      intro other held size chunks flies
      cases flies
  case h_2 buffer after taken =>
    rw [taken] at shape
    dsimp only at shape
    subst shape
    dsimp only
    split
    case h_1 file others opened =>
      split
      · refine doRead_listed ?_ file buffer
        exact ⟨ahead.reads, ahead.unread⟩
      · refine readOther_listed ?_ ?_ buffer
        · exact ⟨ahead.reads, ahead.unread⟩
        · exact quiet
    case h_2 =>
      refine readOther_listed ?_ ?_ buffer
      · exact ⟨ahead.reads, ahead.unread⟩
      · exact quiet

/-- Without a file whose end the consumer is being given, nothing is left out. -/
theorem Listed.ahead {state : SeqState} (listed : Listed cfg state)
    (going : drained state.request = []) :
    Ahead cfg state (state.fileQueue ++ unopened state.request ++ state.openFiles) := by
  refine ⟨listed.reads, fun file member => listed.unread file ?_⟩
  simpa [going] using member

theorem fail_listed {state : SeqState} (listed : Listed cfg state)
    (going : drained state.request = []) : Listed cfg (fail state) := by
  have ahead := listed.ahead going
  refine ⟨⟨ahead.reads, fun file member => ahead.unread file ?_⟩, fun _ _ _ _ flies => by cases flies⟩
  simp only [fail, unopened, drained, List.append_nil, List.not_mem_nil, not_false_eq_true,
    decide_true, List.filter_true, List.mem_append] at member ⊢
  exact member.imp_left Or.inl

theorem opened_listed {state after : SeqState} {failed : Bool} (sound : cfg.Sound state)
    (listed : Listed cfg state) (taken : cfg.opened state failed = some after) :
    Listed cfg after := by
  rw [opened] at taken
  split at taken
  case h_2 => cases taken
  case h_1 file buffer flies =>
    have ahead := listed.ahead (by rw [flies]; rfl)
    split at taken
    case isTrue =>
      obtain rfl := Option.some.inj taken
      exact fail_listed listed (by rw [flies]; rfl)
    case isFalse =>
      obtain rfl := Option.some.inj taken
      have zero : Function.update state.pos file 0 = state.pos := by
        have fresh := (sound.fresh file (by simp [flies, unopened])).1
        rw [← fresh, Function.update_eq_self]
      refine readNext_listed ?_ rfl
      refine ⟨by dsimp only; rw [zero]; exact ahead.reads, fun other member => ?_⟩
      dsimp only
      rw [zero]
      apply ahead.unread other
      rw [flies]
      simpa [unopened, or_comm, or_left_comm] using member

theorem read_listed {state after : SeqState} {failed : Bool} {bytesRead : ℕ}
    (slices : 0 < cfg.reqSliceLen) (reads : 0 < cfg.readSize)
    (within : cfg.reqChunkLen ≤ cfg.reqSliceLen) (fits : cfg.reqChunkLen ≤ cfg.readSize)
    (sound : cfg.Sound state) (listed : Listed cfg state)
    (taken : cfg.read state failed bytesRead = some after) : Listed cfg after := by
  rw [read] at taken
  split at taken
  case h_2 => cases taken
  case h_1 file buffer size chunks flies =>
    have going : drained state.request = [] := by rw [flies]; rfl
    have ahead := listed.ahead going
    dsimp only at taken
    split at taken
    case isTrue =>
      obtain rfl := Option.some.inj taken
      exact fail_listed listed going
    split at taken
    case isTrue => cases taken
    case isFalse enough =>
    split at taken
    case isTrue =>
      obtain rfl := Option.some.inj taken
      exact fail_listed listed going
    case isFalse inside =>
    split at taken
    case isTrue =>
      obtain rfl := Option.some.inj taken
      exact fail_listed listed going
    case isFalse whole =>
      obtain rfl := Option.some.inj taken
      have opened : file ∈ state.openFiles := sound.active file (by simp [flies, SeqConfig.active])
      have unread := ahead.unread file (List.mem_append_right _ opened)
      have asked := listed.asked file buffer size chunks flies
      have placed := readLength_placed slices reads within fits unread
      rw [← asked] at placed
      dsimp only at placed
      have length : min size ((cfg.file file).size - state.pos file) = bytesRead := by
        omega
      rw [length] at placed
      have bytes : (slice (cfg.file file).content (state.pos file)
          (state.pos file + bytesRead)).length = bytesRead := by
        rw [slice_length _ _ _ (by omega), Nat.add_sub_cancel_left]
      refine ⟨⟨fun other => ?_, fun other member => ?_⟩, fun _ _ _ _ flies => by cases flies⟩
      · dsimp only
        rw [piecesOf, List.filter_append]
        by_cases same : file = other
        · subst same
          rw [Function.update_self, List.filter_singleton, decide_eq_true rfl, cond_true]
          exact Reads.next (listed.reads file) placed rfl rfl bytes
        · rw [Function.update_of_ne (Ne.symm same), List.filter_singleton, decide_eq_false same, cond_false,
            List.append_nil]
          exact listed.reads other
      · dsimp only at member ⊢
        obtain ⟨member, going⟩ := List.mem_filter.mp member
        by_cases same : other = file
        · rw [same, Function.update_self]
          rw [same, decide_eq_true_eq] at going
          by_contra more
          have last : state.pos file + bytesRead = (cfg.file file).size := by omega
          exact going (by simp [last, drained])
        · rw [Function.update_of_ne same]
          apply ahead.unread other
          rw [flies]
          exact member

theorem returned_listed {state after : SeqState} (sound : cfg.Sound state)
    (listed : Listed cfg state) (taken : returned cfg state = some after) :
    Listed cfg after := by
  rw [returned] at taken
  split at taken
  case h_2 => cases taken
  case h_1 file eof flies =>
    split at taken
    case isTrue last =>
      obtain rfl := Option.some.inj taken
      refine ⟨⟨listed.reads, fun other member => ?_⟩, fun _ _ _ _ flies => by cases flies⟩
      obtain ⟨lost, -, files⟩ := sound.files
      have distinct : state.openFiles.Nodup := by
        have all := files.nodup_iff.mpr cfg.nonempty_nodup
        simp only [List.append_assoc] at all
        exact (List.nodup_append.mp (List.nodup_append.mp (List.nodup_append.mp all).2.1).2.1).1
      apply listed.unread other
      rw [flies, last]
      simp only [unopened, drained, List.append_nil, List.mem_filter, List.mem_append,
        List.mem_singleton, decide_eq_true_eq, List.not_mem_nil, not_false_eq_true, and_true] at member ⊢
      rcases member with queued | opened
      · refine ⟨Or.inl queued, ?_⟩
        rintro rfl
        exact (sound.apart (sound.active other (by simp [flies, SeqConfig.active]))).1
          (List.mem_append_left _ queued)
      · exact ⟨Or.inr (List.mem_of_mem_erase opened), ((List.Nodup.mem_erase_iff distinct).mp opened).1⟩
    case isFalse more =>
      obtain rfl := Option.some.inj taken
      have ahead := listed.ahead (by rw [flies]; cases eof <;> simp_all [drained])
      refine readNext_listed ?_ rfl
      refine ⟨ahead.reads, fun other member => ahead.unread other ?_⟩
      rw [flies]
      simpa [unopened] using member

theorem closed_listed {state after : SeqState} {failed : Bool} (listed : Listed cfg state)
    (taken : cfg.closed state failed = some after) : Listed cfg after := by
  rw [closed] at taken
  split at taken
  case h_2 => cases taken
  case h_1 file flies =>
    split at taken
    case isTrue =>
      obtain rfl := Option.some.inj taken
      exact fail_listed listed (by rw [flies]; rfl)
    case isFalse =>
      obtain rfl := Option.some.inj taken
      have ahead := listed.ahead (by rw [flies]; rfl)
      refine readNext_listed ?_ rfl
      refine ⟨ahead.reads, fun other member => ahead.unread other ?_⟩
      rw [flies]
      simpa [unopened] using member

/-- A piece that is given up may start the reader again, but does not change what was read. -/
theorem unref_listed {state : SeqState} (idle : state.isReading = false → state.request = none)
    (listed : Listed cfg state) (index : ℕ) (data : FileReaderData) :
    Listed cfg (cfg.unref state index data) := by
  rw [unref]
  split
  · rw [processed]
    dsimp only
    split
    case isTrue =>
      exact ⟨⟨listed.reads, listed.unread⟩, listed.asked⟩
    case isFalse stopped =>
      have quiet := idle (by simpa using stopped)
      have ahead := listed.ahead (by rw [quiet]; rfl)
      refine readNext_listed ?_ quiet
      refine ⟨ahead.reads, fun other member => ahead.unread other ?_⟩
      rw [quiet]
      simpa [unopened] using member
  · exact ⟨⟨listed.reads, listed.unread⟩, listed.asked⟩

theorem step_listed {state after : SeqState} {event : SeqEvent} (slices : 0 < cfg.reqSliceLen)
    (reads : 0 < cfg.readSize) (within : cfg.reqChunkLen ≤ cfg.reqSliceLen)
    (fits : cfg.reqChunkLen ≤ cfg.readSize) (sound : cfg.Sound state)
    (listed : Listed cfg state) (taken : cfg.step state event = some after) :
    Listed cfg after := by
  have idle : state.isReading = false → state.request = none := by
    intro stopped
    by_contra flies
    have := sound.reading.mpr (Or.inl flies)
    rw [stopped] at this
    cases this
  cases event with
  | opened failed => exact opened_listed sound listed taken
  | read failed bytesRead => exact read_listed slices reads within fits sound listed taken
  | returned => exact returned_listed sound listed taken
  | closed failed => exact closed_listed listed taken
  | hashed index =>
    rw [step, hashed] at taken
    split at taken
    case h_2 => cases taken
    case h_1 data held =>
      split at taken
      case isTrue => cases taken
      case isFalse =>
        obtain rfl := Option.some.inj taken
        refine unref_listed ?_ ?_ index _
        · exact idle
        · exact ⟨⟨listed.reads, listed.unread⟩, listed.asked⟩
  | release index =>
    rw [step, release] at taken
    split at taken
    case h_2 => cases taken
    case h_1 data held =>
      split at taken
      case isTrue => cases taken
      case isFalse =>
        obtain rfl := Option.some.inj taken
        exact unref_listed idle listed index _

theorem start_listed (bufs : List ℕ) : Listed cfg (cfg.start bufs) := by
  refine readNext_listed ⟨fun _ => Reads.start, fun file member => ?_⟩ rfl
  rw [List.append_nil] at member
  have := (List.mem_filter.mp member).2
  rwa [decide_eq_true_eq] at this

/-- The reads of a file up to a position: they follow each other, every slice that starts before the
position is listed once in one of them, which has its whole required part, and nothing else is listed. -/
structure RightReads (cfg : SeqConfig) (file : ChunkFile) (pieces : List SeqPiece) (pos : ℕ) : Prop where
  contiguous : ∀ before piece after, pieces = before ++ piece :: after →
    piece.pos = (before.flatMap SeqPiece.bytes).length
  covers : (pieces.flatMap SeqPiece.bytes).length = pos
  progress : ∀ piece ∈ pieces, 0 < piece.bytes.length ∧ piece.bytes.length ≤ cfg.readSize
  inFile : ∀ piece ∈ pieces, piece.bytes = slice file.content piece.pos (piece.pos + piece.bytes.length)
  starts : pieces.flatMap (fun piece => piece.listed.map (piece.pos + ·)) =
    (List.range (slicesBelow cfg.reqSliceLen pos)).map (· * cfg.reqSliceLen)
  whole : ∀ piece ∈ pieces, ∀ chunk ∈ piece.listed,
    chunk + min cfg.reqChunkLen (file.size - (piece.pos + chunk)) ≤ piece.bytes.length
  passed : (pieces.mapM fun piece =>
      passChunks cfg.reqSliceLen cfg.reqChunkLen file.size piece piece.listed none).map
    List.flatten = some ((List.range (slicesBelow cfg.reqSliceLen pos)).map fun slicePos =>
      (slicePos, cfg.requiredPart file slicePos))

theorem Reads.right {file : ChunkFile} {pieces : List SeqPiece} {pos : ℕ}
    (slices : 0 < cfg.reqSliceLen) (reads : Reads cfg file pieces pos) :
    RightReads cfg file pieces pos where
  contiguous := reads.contiguous.2
  covers := reads.contiguous.1
  progress piece member := ⟨(reads.placed piece member).1.progress, (reads.placed piece member).1.bounded⟩
  inFile piece member := (reads.placed piece member).2
  starts := reads.starts slices
  whole piece member chunk listed := ((reads.placed piece member).1.whole chunk listed).2
  passed := reads.passed slices

/-- Every file is read as required, and to its end before it is closed. -/
structure RightState (cfg : SeqConfig) (state : SeqState) : Prop where
  reads : ∀ file, RightReads cfg (cfg.file file) (piecesOf state.given file) (state.pos file)
  closed : ∀ file ∈ state.closed, state.pos file = (cfg.file file).size
  finished : state.finishes = 1 → ∀ file < cfg.files.length, 0 < (cfg.file file).size →
    file ∈ state.closed

/-- A file of seven bytes in slices of four, of which three are required, read four at a time. -/
def twoSlices : SeqConfig where
  files := [⟨7, [0, 1, 2, 3, 4, 5, 6]⟩]
  readSize := 4
  maxBufs := 1
  maxQueuePerFile := 1
  reqSliceLen := 4
  reqChunkLen := 3

end SeqConfig

end Par3
