import Par3.Blake3

/-!
# What the hasher returns

Whatever pieces a message is taken in, the hasher keeps the chunk that it is in, and the trees over the chunks
before it. From these, the root of the left-complete tree over all chunks is made.
-/

namespace Par3

namespace Blake3

/-! ## Pieces of a buffer -/

section
variable (buf : Buffer) {start stop : ℕ}

theorem take_slice {count : ℕ} (inside : count ≤ stop - start) :
    (slice buf start stop).take count = slice buf start (start + count) := by
  rw [slice, slice, List.take_take, Nat.min_eq_left inside, Nat.add_sub_cancel_left]

theorem drop_slice (count : ℕ) : (slice buf start stop).drop count = slice buf (start + count) stop := by
  rw [slice, slice, List.drop_take, List.drop_drop, Nat.sub_sub]

theorem slice_empty (same : stop ≤ start) : slice buf start stop = [] := by
  rw [slice, Nat.sub_eq_zero_of_le same, List.take_zero]

end

/-! ## The tree -/

section
variable (compress : Compression)

/-- The blocks of a chunk are compressed one after another, and the last one is left. -/
def chunkOutput (flags : UInt8) (counter : ℕ) (cv : Words) (blocks : ℕ) (bytes : Buffer) : Output :=
  let start := if blocks = 0 then CHUNK_START else 0
  if more : bytes.length > BLAKE3_BLOCK_LEN then
    have : (bytes.drop BLAKE3_BLOCK_LEN).length < bytes.length := drop_block_shorter more
    chunkOutput flags counter
      (compress.blake3_compress_in_place cv (bytes.take BLAKE3_BLOCK_LEN) BLAKE3_BLOCK_LEN counter (flags ||| start))
      (blocks + 1) (bytes.drop BLAKE3_BLOCK_LEN)
  else
    { input_cv := cv
      counter := counter
      block := bytes ++ List.replicate (BLAKE3_BLOCK_LEN - bytes.length) 0
      block_len := bytes.length
      flags := flags ||| start ||| CHUNK_END }
termination_by bytes.length
decreasing_by exact this

/-- The leaves of the tree over a message -/
def leaf (message : Buffer) (i : ℕ) : Output :=
  chunkOutput compress 0 i IV 0 (slice message (BLAKE3_CHUNK_LEN * i) (BLAKE3_CHUNK_LEN * i + BLAKE3_CHUNK_LEN))

/-- The node above two others -/
def parent (left right : Output) : Output :=
  parent_output (output_chaining_value compress left ++ output_chaining_value compress right) IV 0

/-- The number of chunks: an empty message has one. -/
def chunkCount (message : Buffer) : ℕ := (message.length - 1) / BLAKE3_CHUNK_LEN + 1

/-- The bytes of the root of the left-complete tree over the chunks of a message. -/
def digest (message : Buffer) (out_len : ℕ) : Buffer :=
  output_root_bytes compress (LeftComplete.root (parent compress) (leaf compress message) (chunkCount message)) 0
    out_len

/-! ## One chunk -/

/-- The state of a chunk after some bytes -/
def chunkState (flags : UInt8) (counter : ℕ) (cv : Words) (blocks : ℕ) (bytes : Buffer) : ChunkState :=
  let start := if blocks = 0 then CHUNK_START else 0
  if more : bytes.length > BLAKE3_BLOCK_LEN then
    have : (bytes.drop BLAKE3_BLOCK_LEN).length < bytes.length := drop_block_shorter more
    chunkState flags counter
      (compress.blake3_compress_in_place cv (bytes.take BLAKE3_BLOCK_LEN) BLAKE3_BLOCK_LEN counter (flags ||| start))
      (blocks + 1) (bytes.drop BLAKE3_BLOCK_LEN)
  else
    { cv := cv
      chunk_counter := counter
      buf := bytes ++ List.replicate (BLAKE3_BLOCK_LEN - bytes.length) 0
      buf_len := bytes.length
      blocks_compressed := blocks
      flags := flags }
termination_by bytes.length
decreasing_by exact this

section
variable {compress} {flags : UInt8} {counter : ℕ} {cv : Words} {blocks : ℕ} {bytes : Buffer}

theorem chunkState_short (short : bytes.length ≤ BLAKE3_BLOCK_LEN) :
    chunkState compress flags counter cv blocks bytes =
      { cv := cv
        chunk_counter := counter
        buf := bytes ++ List.replicate (BLAKE3_BLOCK_LEN - bytes.length) 0
        buf_len := bytes.length
        blocks_compressed := blocks
        flags := flags } := by
  rw [chunkState]
  exact dif_neg (by omega)

theorem chunkState_long (long : bytes.length > BLAKE3_BLOCK_LEN) :
    chunkState compress flags counter cv blocks bytes =
      chunkState compress flags counter
        (compress.blake3_compress_in_place cv (bytes.take BLAKE3_BLOCK_LEN) BLAKE3_BLOCK_LEN counter
          (flags ||| if blocks = 0 then CHUNK_START else 0))
        (blocks + 1) (bytes.drop BLAKE3_BLOCK_LEN) := by
  rw [chunkState]
  exact dif_pos long

/-- An induction over the blocks -/
theorem chunkState_induction {motive : Words → ℕ → Buffer → Prop}
    (short : ∀ cv blocks bytes, bytes.length ≤ BLAKE3_BLOCK_LEN → motive cv blocks bytes)
    (long : ∀ cv blocks bytes, bytes.length > BLAKE3_BLOCK_LEN →
      (∀ cv', motive cv' (blocks + 1) (bytes.drop BLAKE3_BLOCK_LEN)) → motive cv blocks bytes)
    (cv : Words) (blocks : ℕ) (bytes : Buffer) : motive cv blocks bytes := by
  induction size : bytes.length using Nat.strong_induction_on generalizing cv blocks bytes with
  | _ size ih =>
    subst size
    by_cases more : bytes.length > BLAKE3_BLOCK_LEN
    · exact long cv blocks bytes more fun cv' => ih _ (drop_block_shorter more) _ _ _ rfl
    · exact short cv blocks bytes (by omega)

theorem chunk_state_output_eq (cv : Words) (blocks : ℕ) (bytes : Buffer) :
    chunk_state_output (chunkState compress flags counter cv blocks bytes) =
      chunkOutput compress flags counter cv blocks bytes := by
  induction cv, blocks, bytes using chunkState_induction with
  | short cv blocks bytes short =>
    rw [chunkState_short short, chunkOutput, dif_neg (by omega)]
    rfl
  | long cv blocks bytes long ih =>
    rw [chunkState_long long, chunkOutput, dif_pos long]
    exact ih _

theorem chunk_state_len_eq (cv : Words) (blocks : ℕ) (bytes : Buffer) :
    chunk_state_len (chunkState compress flags counter cv blocks bytes) =
      BLAKE3_BLOCK_LEN * blocks + bytes.length := by
  induction cv, blocks, bytes using chunkState_induction with
  | short cv blocks bytes short => rw [chunkState_short short, chunk_state_len]
  | long cv blocks bytes long ih =>
    rw [chunkState_long long, ih, List.length_drop, Nat.mul_succ]
    omega

theorem chunkState_counter (cv : Words) (blocks : ℕ) (bytes : Buffer) :
    (chunkState compress flags counter cv blocks bytes).chunk_counter = counter := by
  induction cv, blocks, bytes using chunkState_induction with
  | short cv blocks bytes short => rw [chunkState_short short]
  | long cv blocks bytes long ih => rw [chunkState_long long, ih]

theorem chunkState_flags (cv : Words) (blocks : ℕ) (bytes : Buffer) :
    (chunkState compress flags counter cv blocks bytes).flags = flags := by
  induction cv, blocks, bytes using chunkState_induction with
  | short cv blocks bytes short => rw [chunkState_short short]
  | long cv blocks bytes long ih => rw [chunkState_long long, ih]

/-- The loop over the blocks, from a state without bytes of a block -/
theorem compressBlocks_fill (cv : Words) (blocks : ℕ) (input : Buffer) :
    (chunk_state_fill_buf ((chunkState compress flags counter cv blocks []).compressBlocks compress input).1
      ((chunkState compress flags counter cv blocks []).compressBlocks compress input).2).1 =
      chunkState compress flags counter cv blocks input := by
  induction cv, blocks, input using chunkState_induction with
  | short cv blocks input short =>
    rw [ChunkState.compressBlocks, dif_neg (by omega), chunkState_short short, chunkState_short (Nat.zero_le _),
      chunk_state_fill_buf]
    dsimp only
    rw [List.length_nil, Nat.sub_zero, Nat.min_eq_right short, List.take_zero, List.nil_append, List.nil_append,
      Nat.zero_add, List.take_length, List.drop_replicate]
  | long cv blocks input long ih =>
    have step : (chunkState compress flags counter cv blocks []).compressBlock compress
        (input.take BLAKE3_BLOCK_LEN) = chunkState compress flags counter
          (compress.blake3_compress_in_place cv (input.take BLAKE3_BLOCK_LEN) BLAKE3_BLOCK_LEN counter
            (flags ||| if blocks = 0 then CHUNK_START else 0)) (blocks + 1) [] := by
      rw [chunkState_short (Nat.zero_le _), chunkState_short (Nat.zero_le _)]
      rfl
    rw [ChunkState.compressBlocks, dif_pos long, step, ih, chunkState_long long]

/-- Bytes that come after others -/
theorem chunk_state_update_eq (cv : Words) (blocks : ℕ) (bytes input : Buffer) :
    chunk_state_update compress (chunkState compress flags counter cv blocks bytes) input =
      chunkState compress flags counter cv blocks (bytes ++ input) := by
  induction cv, blocks, bytes using chunkState_induction with
  | short cv blocks bytes short =>
    by_cases none : bytes.length = 0
    · obtain rfl := List.eq_nil_of_length_eq_zero none
      rw [List.nil_append, chunk_state_update, if_neg]
      · exact compressBlocks_fill cv blocks input
      · rw [chunkState_short (Nat.zero_le _)]
        exact Nat.lt_irrefl 0
    · have total : (bytes ++ input).length = bytes.length + input.length := List.length_append
      rw [chunk_state_update, if_pos (by rw [chunkState_short short]; dsimp only; omega)]
      -- the bytes that fill the block
      by_cases room : bytes.length + input.length ≤ BLAKE3_BLOCK_LEN
      · have filled : chunk_state_fill_buf (chunkState compress flags counter cv blocks bytes) input =
            (chunkState compress flags counter cv blocks (bytes ++ input), input.length) := by
          rw [chunkState_short short, chunkState_short (by omega), chunk_state_fill_buf]
          dsimp only
          rw [Nat.min_eq_right (by omega), List.take_left, List.take_length, List.drop_append, List.drop_replicate,
            List.drop_eq_nil_of_le (Nat.le_add_right _ _), List.nil_append, total, Nat.add_sub_cancel_left,
            Nat.sub_sub]
        rw [filled]
        dsimp only
        rw [List.drop_length, List.length_nil, if_neg (Nat.lt_irrefl 0)]
        dsimp only
        rw [ChunkState.compressBlocks, dif_neg (by rw [List.length_nil]; omega), chunk_state_fill_buf]
        dsimp only
        rw [List.length_nil, Nat.min_zero, List.take_zero, List.append_nil, Nat.add_zero, List.take_append_drop]
      · have full : (bytes ++ input).take BLAKE3_BLOCK_LEN =
            bytes ++ input.take (BLAKE3_BLOCK_LEN - bytes.length) := by
          rw [List.take_append, List.take_of_length_le short]
        have rest : (bytes ++ input).drop BLAKE3_BLOCK_LEN = input.drop (BLAKE3_BLOCK_LEN - bytes.length) := by
          rw [List.drop_append, List.drop_eq_nil_of_le short, List.nil_append]
        have filled : chunk_state_fill_buf (chunkState compress flags counter cv blocks bytes) input =
            ({ chunkState compress flags counter cv blocks bytes with
              buf := (bytes ++ input).take BLAKE3_BLOCK_LEN
              buf_len := BLAKE3_BLOCK_LEN }, BLAKE3_BLOCK_LEN - bytes.length) := by
          have whole : bytes.length + (BLAKE3_BLOCK_LEN - bytes.length) = BLAKE3_BLOCK_LEN := by omega
          rw [chunkState_short short, chunk_state_fill_buf]
          dsimp only
          rw [Nat.min_eq_left (by omega), List.take_left, whole, List.drop_append, List.drop_replicate,
            List.drop_eq_nil_of_le short, Nat.sub_self, List.replicate_zero, List.append_nil, List.append_nil, full]
        rw [filled]
        dsimp only
        rw [← rest, if_pos (by rw [List.length_drop]; omega)]
        dsimp only
        have step : { ChunkState.compressBlock compress
              { chunkState compress flags counter cv blocks bytes with
                buf := (bytes ++ input).take BLAKE3_BLOCK_LEN
                buf_len := BLAKE3_BLOCK_LEN }
              ((bytes ++ input).take BLAKE3_BLOCK_LEN) with
            buf_len := 0
            buf := List.replicate BLAKE3_BLOCK_LEN 0 } =
            chunkState compress flags counter
              (compress.blake3_compress_in_place cv ((bytes ++ input).take BLAKE3_BLOCK_LEN) BLAKE3_BLOCK_LEN counter
                (flags ||| if blocks = 0 then CHUNK_START else 0)) (blocks + 1) [] := by
          rw [chunkState_short short, chunkState_short (Nat.zero_le _)]
          rfl
        rw [step, compressBlocks_fill, ← chunkState_long (by omega)]
  | long cv blocks bytes long ih =>
    have more : (bytes ++ input).length > BLAKE3_BLOCK_LEN := by
      rw [List.length_append]
      omega
    rw [chunkState_long long, ih, chunkState_long more, List.take_append_of_le_length (by omega),
      List.drop_append_of_le_length (by omega)]

end

/-! ## The stack -/

/-- The chaining values of nodes -/
def values (nodes : List Output) : List Buffer := nodes.map (output_chaining_value compress)

/-- The trees over the first chunks of a message -/
def trees (message : Buffer) (n : ℕ) : List Output :=
  LeftComplete.stack (parent compress) (leaf compress message) 0 n

/-- The trees over chunks, of which the last one was pushed without a carry. -/
def pushed (message : Buffer) (n : ℕ) : List Output :=
  leaf compress message (n - 1) :: trees compress message (n - 1)

/-- The state of a chunk that is not begun -/
def fresh (n : ℕ) : ChunkState := chunkState compress 0 n IV 0 []

/-- A hasher that stands before a chunk -/
structure Before (message : Buffer) (n : ℕ) (hasher : Hasher) : Prop where
  key : hasher.key = IV
  flags : hasher.chunk.flags = 0
  waiting : hasher.cv_stack = values compress (trees compress message n) ∨
    0 < n ∧ hasher.cv_stack = values compress (pushed compress message n)

section
variable {compress} {message : Buffer} {n : ℕ} {hasher : Hasher} {max_depth : ℕ}

theorem Before.nodes (before : Before compress message n hasher) : ∃ nodes,
    LeftComplete.Waiting (parent compress) (leaf compress message) n nodes ∧
      hasher.cv_stack = values compress nodes := by
  rcases before.waiting with stack | ⟨pos, stack⟩
  · exact ⟨_, .inl rfl, stack⟩
  · exact ⟨_, .inr ⟨pos, rfl⟩, stack⟩

theorem Before.merge (before : Before compress message n hasher) :
    hasher_merge_cv_stack compress hasher n =
      some { hasher with cv_stack := values compress (trees compress message n) } := by
  obtain ⟨nodes, waiting, stack⟩ := before.nodes
  have same : ∀ left right : Output, hasher.parentValue compress (output_chaining_value compress left)
      (output_chaining_value compress right) = output_chaining_value compress (parent compress left right) := by
    intro left right
    rw [Hasher.parentValue, before.key, before.flags, parent]
  rw [hasher_merge_cv_stack, popcnt, stack, values, LeftComplete.merge_map _ _ _ same, waiting.merge]
  rfl

/-- The trees do not fill the stack as long as chunks follow. -/
theorem trees_length (fits : n < 2 ^ max_depth) :
    (values compress (trees compress message n)).length < max_depth + 1 := by
  rw [values, List.length_map, trees, LeftComplete.stack_length]
  exact Nat.lt_succ_of_le (LeftComplete.ones_le fits)

theorem Before.push (before : Before compress message n hasher) (fits : n < 2 ^ max_depth) :
    hasher_push_cv compress max_depth hasher (output_chaining_value compress (leaf compress message n)) n =
      some { hasher with cv_stack := values compress (pushed compress message (n + 1)) } := by
  rw [hasher_push_cv, before.merge]
  exact if_pos (trees_length fits)

theorem Before.pushChunk (before : Before compress message n hasher) (fits : n < 2 ^ max_depth) {input : Buffer}
    (chunk : input = slice message (BLAKE3_CHUNK_LEN * n) (BLAKE3_CHUNK_LEN * n + BLAKE3_CHUNK_LEN)) :
    hasher.pushChunk compress max_depth n input =
      some { hasher with cv_stack := values compress (pushed compress message (n + 1)) } := by
  have begin : { chunk_state_init hasher.key hasher.chunk.flags with chunk_counter := n } =
      chunkState compress 0 n IV 0 [] := by
    rw [chunkState_short (Nat.zero_le _), before.key, before.flags]
    rfl
  rw [Hasher.pushChunk, begin]
  rw [chunk_state_update_eq, List.nil_append, chunk_state_output_eq, chunkState_counter, chunk]
  exact before.push fits

theorem Before.pushed (before : Before compress message n hasher) : Before compress message (n + 1)
    { hasher with cv_stack := values compress (pushed compress message (n + 1)) } where
  key := before.key
  flags := before.flags
  waiting := .inr ⟨Nat.succ_pos n, rfl⟩

/-- The chunks of a subtree are pushed one after another. -/
theorem Before.pushChunks (before : Before compress message n hasher) (count : ℕ)
    (fits : n + count ≤ 2 ^ max_depth)
    (chunk : ℕ → Buffer) (chunks : ∀ c < count, chunk c =
      slice message (BLAKE3_CHUNK_LEN * (n + c)) (BLAKE3_CHUNK_LEN * (n + c) + BLAKE3_CHUNK_LEN)) :
    ∃ cv_stack, (List.range count).foldlM (fun (hasher : Hasher) c =>
        hasher.pushChunk compress max_depth (n + c) (chunk c)) hasher = some { hasher with cv_stack := cv_stack } ∧
      Before compress message (n + count) { hasher with cv_stack := cv_stack } ∧
      (0 < count → cv_stack = values compress (Blake3.pushed compress message (n + count))) := by
  induction count with
  | zero => exact ⟨hasher.cv_stack, rfl, before, fun none => absurd none (Nat.lt_irrefl 0)⟩
  | succ count ih =>
    obtain ⟨cv_stack, run, next, -⟩ := ih (by omega) fun c below => chunks c (by omega)
    refine ⟨_, ?_, next.pushed, fun _ => rfl⟩
    rw [List.range_succ, List.foldlM_append, run]
    have step := next.pushChunk (show n + count < 2 ^ max_depth by omega) (chunks count (Nat.lt_succ_self count))
    simp only [Option.bind_eq_bind, Option.bind_some, List.foldlM_cons, List.foldlM_nil, step]
    rfl

end

/-! ## Subtrees -/

theorem alignSubtree_eq (n : ℕ) {level : ℕ} (big : 10 ≤ level) :
    ∃ lower, 10 ≤ lower ∧ lower ≤ level ∧ alignSubtree (2 ^ level) (n * BLAKE3_CHUNK_LEN) = 2 ^ lower := by
  induction level with
  | zero => omega
  | succ level ih =>
    rw [alignSubtree]
    split
    case isFalse => exact ⟨level + 1, big, le_refl _, rfl⟩
    case isTrue apart =>
      rcases Nat.lt_or_ge level 10 with last | more
      · -- a single chunk is aligned
        obtain rfl : level = 9 := by omega
        refine absurd ?_ apart
        rw [Nat.and_comm, Nat.and_two_pow_sub_one_eq_mod]
        exact Nat.mul_mod_left n (2 ^ 10)
      · obtain ⟨lower, small, below, aligned⟩ := ih more
        have half : 2 ^ (level + 1) / 2 = 2 ^ level := by rw [pow_succ, Nat.mul_div_cancel _ (by decide)]
        refine ⟨lower, small, by omega, ?_⟩
        dsimp only
        rw [half, aligned]

/-- A subtree is made of whole chunks of the input. -/
theorem subtree_chunks (n : ℕ) {length : ℕ} (more : length > BLAKE3_CHUNK_LEN) :
    ∃ chunks, 0 < chunks ∧ BLAKE3_CHUNK_LEN * chunks ≤ length ∧
      alignSubtree (round_down_to_power_of_2 length) (n * BLAKE3_CHUNK_LEN) = BLAKE3_CHUNK_LEN * chunks := by
  rw [BLAKE3_CHUNK_LEN] at more
  have big : 10 ≤ Nat.log2 length := (Nat.le_log2 (by omega)).mpr (by omega)
  obtain ⟨lower, small, below, aligned⟩ := alignSubtree_eq n big
  have split : 2 ^ lower = BLAKE3_CHUNK_LEN * 2 ^ (lower - 10) := by
    have ten : BLAKE3_CHUNK_LEN = 2 ^ 10 := rfl
    rw [ten, ← pow_add, Nat.add_sub_cancel' small]
  refine ⟨2 ^ (lower - 10), Nat.two_pow_pos _, ?_, ?_⟩
  · rw [← split]
    exact (Nat.pow_le_pow_right (by decide) below).trans (Nat.log2_self_le (by omega))
  · rw [round_down_to_power_of_2, if_neg (by omega), aligned, split]

section
variable {compress} {message : Buffer} {max_depth : ℕ}

/-- The loop over subtrees leaves at most a chunk, and nothing only where it has pushed two chunks or more. -/
theorem hashSubtrees_spec (fits : message.length ≤ BLAKE3_CHUNK_LEN * 2 ^ max_depth) {stop : ℕ}
    (inside : stop ≤ message.length) {n : ℕ} {hasher : Hasher} (before : Before compress message n hasher)
    (chunk : hasher.chunk = fresh compress n) (reached : BLAKE3_CHUNK_LEN * n ≤ stop) :
    ∃ next m, hasher.hashSubtrees compress max_depth (slice message (BLAKE3_CHUNK_LEN * n) stop) =
        some (next, slice message (BLAKE3_CHUNK_LEN * m) stop) ∧
      Before compress message m next ∧ next.chunk = fresh compress m ∧
      BLAKE3_CHUNK_LEN * m ≤ stop ∧ stop ≤ BLAKE3_CHUNK_LEN * m + BLAKE3_CHUNK_LEN ∧
      (BLAKE3_CHUNK_LEN * n < stop → BLAKE3_CHUNK_LEN * m = stop →
        2 ≤ m ∧ next.cv_stack = values compress (pushed compress message m)) := by
  induction size : stop - BLAKE3_CHUNK_LEN * n using Nat.strong_induction_on generalizing n hasher with
  | _ size ih =>
    subst size
    have length : (slice message (BLAKE3_CHUNK_LEN * n) stop).length = stop - BLAKE3_CHUNK_LEN * n :=
      slice_length _ _ _ inside
    have unit : 0 < BLAKE3_CHUNK_LEN := by decide
    rw [Hasher.hashSubtrees]
    by_cases more : (slice message (BLAKE3_CHUNK_LEN * n) stop).length > BLAKE3_CHUNK_LEN
    · rw [dif_pos more]
      dsimp only
      have counter : hasher.chunk.chunk_counter = n := by rw [chunk, fresh, chunkState_counter]
      obtain ⟨chunks, pos, short, aligned⟩ := subtree_chunks n more
      rw [counter, aligned, Nat.mul_div_cancel_left _ unit]
      rw [length] at short more
      have total : BLAKE3_CHUNK_LEN * (n + chunks) = BLAKE3_CHUNK_LEN * n + BLAKE3_CHUNK_LEN * chunks :=
        Nat.mul_add _ _ _
      have forward : 0 < BLAKE3_CHUNK_LEN * chunks := Nat.mul_pos unit pos
      have below : n + chunks ≤ 2 ^ max_depth := by
        refine Nat.le_of_mul_le_mul_left ?_ unit
        omega
      -- the chunks of the subtree, one or more
      obtain ⟨cv_stack, run, next, top⟩ : ∃ cv_stack,
          (if BLAKE3_CHUNK_LEN * chunks ≤ BLAKE3_CHUNK_LEN then
            hasher.pushChunk compress max_depth n
              ((slice message (BLAKE3_CHUNK_LEN * n) stop).take (BLAKE3_CHUNK_LEN * chunks))
          else (List.range chunks).foldlM (fun (hasher : Hasher) c =>
            hasher.pushChunk compress max_depth (n + c)
              (((slice message (BLAKE3_CHUNK_LEN * n) stop).drop (c * BLAKE3_CHUNK_LEN)).take BLAKE3_CHUNK_LEN))
            hasher) =
            some { hasher with cv_stack := cv_stack } ∧
          Before compress message (n + chunks) { hasher with cv_stack := cv_stack } ∧
          cv_stack = values compress (pushed compress message (n + chunks)) := by
        split
        case isTrue single =>
          have one : chunks = 1 := by
            have le : chunks ≤ 1 := Nat.le_of_mul_le_mul_left (by omega) unit
            omega
          subst one
          refine ⟨_, before.pushChunk (show n < 2 ^ max_depth by omega) ?_, before.pushed, rfl⟩
          rw [take_slice _ (by omega), Nat.mul_one]
        case isFalse several =>
          obtain ⟨cv_stack, run, next, top⟩ := before.pushChunks chunks below
            (fun c => ((slice message (BLAKE3_CHUNK_LEN * n) stop).drop (c * BLAKE3_CHUNK_LEN)).take BLAKE3_CHUNK_LEN)
            fun c inner => by
              have within : BLAKE3_CHUNK_LEN * (c + 1) ≤ BLAKE3_CHUNK_LEN * chunks := Nat.mul_le_mul_left _ inner
              rw [Nat.mul_succ] at within
              rw [drop_slice, Nat.mul_comm c, ← Nat.mul_add, take_slice]
              rw [Nat.mul_add]
              omega
          exact ⟨cv_stack, run, next, top pos⟩
      rw [run, Option.bind_some, drop_slice, ← total]
      dsimp only
      rw [counter]
      have begun : { hasher.chunk with chunk_counter := n + chunks } = fresh compress (n + chunks) := by
        rw [chunk, fresh, fresh, chunkState_short (Nat.zero_le _), chunkState_short (Nat.zero_le _)]
      rw [begun]
      have ahead : Before compress message (n + chunks)
          { hasher with cv_stack := cv_stack, chunk := fresh compress (n + chunks) } :=
        ⟨next.key, chunkState_flags _ _ _, next.waiting⟩
      rcases Nat.lt_or_ge (BLAKE3_CHUNK_LEN * (n + chunks)) stop with left | none
      · obtain ⟨last, m, result, standing, state, low, high, ended⟩ :=
          ih (stop - BLAKE3_CHUNK_LEN * (n + chunks)) (by omega) ahead rfl (by omega) rfl
        exact ⟨last, m, result, standing, state, low, high, fun _ => ended left⟩
      · -- the subtree is all that there was, and it has two chunks or more
        have two : 2 ≤ chunks := by
          by_contra one
          obtain rfl : chunks = 1 := by omega
          rw [Nat.mul_one] at total
          omega
        refine ⟨_, n + chunks, ?_, ahead, rfl, by omega, by omega, fun _ _ => ⟨by omega, top⟩⟩
        rw [Hasher.hashSubtrees, dif_neg]
        rw [slice_empty _ none]
        exact Nat.not_lt_zero _
    · rw [dif_neg more]
      exact ⟨hasher, n, rfl, before, chunk, reached, by omega, by omega⟩

end

/-! ## The hasher -/

/-- The hasher after the first bytes of a message. It is in the chunk with a number, of which it may have nothing;
then that is because it has nothing at all, or because the last call ended with two chunks or more. -/
structure Absorbed (message : Buffer) (t n : ℕ) (hasher : Hasher) : Prop where
  key : hasher.key = IV
  chunk : hasher.chunk = chunkState compress 0 n IV 0 (slice message (BLAKE3_CHUNK_LEN * n) t)
  lower : BLAKE3_CHUNK_LEN * n ≤ t
  upper : t ≤ BLAKE3_CHUNK_LEN * n + BLAKE3_CHUNK_LEN
  stack : (t = 0 ∨ BLAKE3_CHUNK_LEN * n < t) ∧ hasher.cv_stack = values compress (trees compress message n) ∨
    t = BLAKE3_CHUNK_LEN * n ∧ 2 ≤ n ∧ hasher.cv_stack = values compress (pushed compress message n)

section
variable {compress} {message : Buffer} {max_depth t n : ℕ} {hasher : Hasher}

theorem updateRest_spec (fits : message.length ≤ BLAKE3_CHUNK_LEN * 2 ^ max_depth) {stop : ℕ}
    (inside : stop ≤ message.length) (before : Before compress message n hasher)
    (chunk : hasher.chunk = fresh compress n) (more : BLAKE3_CHUNK_LEN * n < stop) :
    ∃ next m, hasher.updateRest compress max_depth (slice message (BLAKE3_CHUNK_LEN * n) stop) = some next ∧
      Absorbed compress message stop m next := by
  obtain ⟨next, m, result, standing, state, low, high, ended⟩ :=
    hashSubtrees_spec fits inside before chunk (Nat.le_of_lt more)
  have length : (slice message (BLAKE3_CHUNK_LEN * m) stop).length = stop - BLAKE3_CHUNK_LEN * m :=
    slice_length _ _ _ inside
  rw [Hasher.updateRest, result]
  simp only [Option.bind_eq_bind, Option.bind_some]
  split
  case isTrue left =>
    have updated : chunk_state_update compress next.chunk (slice message (BLAKE3_CHUNK_LEN * m) stop) =
        chunkState compress 0 m IV 0 (slice message (BLAKE3_CHUNK_LEN * m) stop) := by
      rw [state, fresh, chunk_state_update_eq, List.nil_append]
    rw [updated, chunkState_counter]
    have ready : Before compress message m
        { next with chunk := chunkState compress 0 m IV 0 (slice message (BLAKE3_CHUNK_LEN * m) stop) } :=
      ⟨standing.key, chunkState_flags _ _ _, standing.waiting⟩
    exact ⟨_, m, ready.merge, standing.key, rfl, low, high, .inl ⟨.inr (by omega), rfl⟩⟩
  case isFalse none =>
    have reached : BLAKE3_CHUNK_LEN * m = stop := by omega
    obtain ⟨two, top⟩ := ended more reached
    refine ⟨next, m, rfl, standing.key, ?_, low, high, .inr ⟨reached.symm, two, top⟩⟩
    rw [state, fresh, slice_empty _ (by omega)]

/-- A hasher that has nothing of its chunk -/
theorem Absorbed.before (absorbed : Absorbed compress message t n hasher) : Before compress message n hasher where
  key := absorbed.key
  flags := by rw [absorbed.chunk, chunkState_flags]
  waiting := by
    rcases absorbed.stack with ⟨-, stack⟩ | ⟨-, two, stack⟩
    · exact .inl stack
    · exact .inr ⟨by omega, stack⟩

theorem Absorbed.chunk_len (absorbed : Absorbed compress message t n hasher) (inside : t ≤ message.length) :
    chunk_state_len hasher.chunk = t - BLAKE3_CHUNK_LEN * n := by
  rw [absorbed.chunk, chunk_state_len_eq, slice_length _ _ _ inside, Nat.mul_zero, Nat.zero_add]

/-- The bytes of an update come after those before it. -/
theorem Absorbed.update (absorbed : Absorbed compress message t n hasher)
    (fits : message.length ≤ BLAKE3_CHUNK_LEN * 2 ^ max_depth) {stop : ℕ} (forward : t ≤ stop)
    (inside : stop ≤ message.length) :
    ∃ next m, blake3_hasher_update compress max_depth hasher (slice message t stop) = some next ∧
      Absorbed compress message stop m next := by
  have length : (slice message t stop).length = stop - t := slice_length _ _ _ inside
  have lower := absorbed.lower
  have upper := absorbed.upper
  rw [blake3_hasher_update, blake3_hasher_update_base, length]
  by_cases none : stop - t = 0
  · obtain rfl : stop = t := by omega
    rw [if_pos none]
    exact ⟨hasher, n, rfl, absorbed⟩
  rw [if_neg none, absorbed.chunk_len (by omega)]
  by_cases begun : t - BLAKE3_CHUNK_LEN * n > 0
  · rw [if_pos begun]
    dsimp only
    have stack : hasher.cv_stack = values compress (trees compress message n) := by
      rcases absorbed.stack with ⟨-, stack⟩ | ⟨same, -, -⟩
      · exact stack
      · omega
    generalize count : min (BLAKE3_CHUNK_LEN - (t - BLAKE3_CHUNK_LEN * n)) (stop - t) = take
    have filled : chunk_state_update compress hasher.chunk ((slice message t stop).take take) =
        chunkState compress 0 n IV 0 (slice message (BLAKE3_CHUNK_LEN * n) (t + take)) := by
      rw [absorbed.chunk, chunk_state_update_eq, take_slice _ (by omega), ← slice_split _ _ _ _ lower (by omega)]
    rw [filled, drop_slice, slice_length _ _ _ inside]
    split
    case isTrue left =>
      -- the chunk is whole, and others follow
      have whole : t + take = BLAKE3_CHUNK_LEN * n + BLAKE3_CHUNK_LEN := by omega
      have ready : Before compress message n
          { hasher with
            chunk := chunkState compress 0 n IV 0 (slice message (BLAKE3_CHUNK_LEN * n) (t + take)) } :=
        ⟨absorbed.key, chunkState_flags _ _ _, .inl stack⟩
      have room : n < 2 ^ max_depth := by
        refine Nat.lt_of_mul_lt_mul_left (a := BLAKE3_CHUNK_LEN) ?_
        omega
      have output : chunk_state_output
          (chunkState compress 0 n IV 0 (slice message (BLAKE3_CHUNK_LEN * n) (t + take))) =
          leaf compress message n := by
        rw [chunk_state_output_eq, whole]
        rfl
      have push := ready.push room
      have reset : chunk_state_reset
          (chunkState compress 0 n IV 0 (slice message (BLAKE3_CHUNK_LEN * n) (t + take))) hasher.key (n + 1) =
          fresh compress (n + 1) := by
        have empty : ([] : Buffer).length ≤ BLAKE3_BLOCK_LEN := Nat.zero_le _
        rw [chunk_state_reset, chunkState_flags, absorbed.key, fresh, chunkState_short empty]
        rfl
      rw [output, chunkState_counter, push]
      simp only [Option.bind_eq_bind, Option.bind_some]
      rw [chunkState_counter, reset]
      have next := ready.pushed
      have position : t + take = BLAKE3_CHUNK_LEN * (n + 1) := by rw [whole, Nat.mul_succ]
      rw [position]
      exact updateRest_spec fits inside ⟨next.key, chunkState_flags _ _ _, next.waiting⟩ rfl (by omega)
    case isFalse none =>
      have reached : t + take = stop := by omega
      rw [reached]
      exact ⟨_, n, rfl, absorbed.key, rfl, by omega, by omega, .inl ⟨.inr (by omega), stack⟩⟩
  · rw [if_neg begun]
    obtain rfl : t = BLAKE3_CHUNK_LEN * n := by omega
    refine updateRest_spec fits inside absorbed.before ?_ (by omega)
    rw [absorbed.chunk, slice_empty _ (le_refl _), fresh]

/-- The last chunk, or the only one -/
theorem leaf_last (reach : message.length ≤ BLAKE3_CHUNK_LEN * n + BLAKE3_CHUNK_LEN) :
    leaf compress message n =
      chunkOutput compress 0 n IV 0 (slice message (BLAKE3_CHUNK_LEN * n) message.length) := by
  rw [leaf, slice, slice, List.take_of_length_le, List.take_of_length_le]
  · rw [List.length_drop]
  · rw [List.length_drop]
    omega

theorem Absorbed.joinStack (absorbed : Absorbed compress message t n hasher) (output : Output) (nodes : List Output) :
    hasher.joinStack compress output (values compress nodes) =
      LeftComplete.join (parent compress) nodes output := by
  rw [Hasher.joinStack, values, LeftComplete.join, List.foldl_map, absorbed.key, absorbed.chunk, chunkState_flags]
  rfl

/-- Neither branch reads below the stack, and both make the root. -/
theorem Absorbed.finalize (absorbed : Absorbed compress message message.length n hasher) (out_len : ℕ) :
    blake3_hasher_finalize compress hasher out_len = some (digest compress message out_len) := by
  have lower := absorbed.lower
  have upper := absorbed.upper
  have unit : 0 < BLAKE3_CHUNK_LEN := by decide
  rw [blake3_hasher_finalize]
  split
  case isTrue none => rw [none, digest, output_root_bytes, if_pos rfl]
  case isFalse =>
    rw [absorbed.chunk_len (le_refl _), digest]
    rcases absorbed.stack with ⟨inner, stack⟩ | ⟨ended, two, stack⟩
    · have count : chunkCount message = n + 1 := by
        rw [chunkCount]
        congr 1
        rcases inner with empty | inner
        · have zero : n = 0 := by
            refine Nat.eq_zero_of_not_pos fun pos => ?_
            have least := Nat.mul_le_mul_left BLAKE3_CHUNK_LEN pos
            omega
          rw [empty, zero]
          rfl
        · refine Nat.div_eq_of_lt_le ?_ ?_ <;> rw [Nat.mul_comm]
          · omega
          · rw [Nat.mul_succ]
            omega
      have joined := LeftComplete.join_stack (parent compress) (leaf compress message) n
      rw [← count] at joined
      have output : chunk_state_output hasher.chunk = leaf compress message n := by
        rw [absorbed.chunk, chunk_state_output_eq, leaf_last upper]
      rw [output, stack, absorbed.joinStack]
      split
      case isTrue empty =>
        have none : trees compress message n = [] := by
          rw [values, List.length_map] at empty
          exact List.eq_nil_of_length_eq_zero empty
        rw [trees] at none
        rw [← joined, none]
        rfl
      case isFalse some =>
        rw [trees] at *
        rw [joined, if_pos]
        rcases inner with empty | inner
        · have zero : n = 0 := by
            refine Nat.eq_zero_of_not_pos fun pos => ?_
            have least := Nat.mul_le_mul_left BLAKE3_CHUNK_LEN pos
            omega
          rw [zero, LeftComplete.stack_zero] at some
          exact absurd rfl some
        · omega
    · -- the last two chunks were pushed, and the last one was not carried
      obtain ⟨last, rfl⟩ : ∃ last, n = last + 2 := ⟨n - 2, by omega⟩
      have count : chunkCount message = last + 2 := by
        rw [chunkCount, ended]
        have before : BLAKE3_CHUNK_LEN * (last + 2) - 1 = (BLAKE3_CHUNK_LEN - 1) + BLAKE3_CHUNK_LEN * (last + 1) := by
          rw [Nat.mul_succ _ (last + 1)]
          omega
        rw [before, Nat.add_mul_div_left _ _ unit, Nat.div_eq_of_lt (by omega), Nat.zero_add]
      have joined := LeftComplete.join_stack (parent compress) (leaf compress message) (last + 1)
      rw [← count] at joined
      have entries := LeftComplete.stack_length (parent compress) (leaf compress message) 0 (last + 1)
      have some := LeftComplete.ones_pos (Nat.succ_pos last)
      rw [pushed, trees, Nat.add_succ_sub_one] at stack
      -- the tree beside the last chunk
      obtain ⟨beside, below, nodes⟩ := List.exists_cons_of_length_pos (entries ▸ some)
      rw [nodes] at joined stack
      have parts : hasher.cv_stack = output_chaining_value compress (leaf compress message (last + 1)) ::
          output_chaining_value compress beside :: values compress below := stack
      have nothing : ¬ message.length - BLAKE3_CHUNK_LEN * (last + 2) > 0 := by omega
      rw [if_neg (by rw [parts, List.length_cons]; omega), if_neg nothing, parts]
      dsimp only
      rw [absorbed.joinStack, absorbed.key, absorbed.chunk, chunkState_flags, ← joined]
      rfl

/-- There is room on the stack. -/
theorem Absorbed.stack_length (absorbed : Absorbed compress message t n hasher)
    (fits : t ≤ BLAKE3_CHUNK_LEN * 2 ^ max_depth) : hasher.cv_stack.length ≤ max_depth + 1 := by
  have unit : 0 < BLAKE3_CHUNK_LEN := by decide
  have below : n ≤ 2 ^ max_depth := Nat.le_of_mul_le_mul_left (absorbed.lower.trans fits) unit
  obtain ⟨nodes, waiting, stack⟩ := absorbed.before.nodes
  rw [stack, values, List.length_map]
  exact waiting.length_le below

/-- With nothing in the chunk, there are no trees or two of them at least. -/
theorem Absorbed.stack_two (absorbed : Absorbed compress message t n hasher) (inside : t ≤ message.length)
    (empty : chunk_state_len hasher.chunk = 0) : hasher.cv_stack = [] ∨ 2 ≤ hasher.cv_stack.length := by
  rw [absorbed.chunk_len inside] at empty
  rcases absorbed.stack with ⟨inner, stack⟩ | ⟨-, two, stack⟩
  · have zero : n = 0 := by
      refine Nat.eq_zero_of_not_pos fun pos => ?_
      have least := Nat.mul_le_mul_left BLAKE3_CHUNK_LEN pos
      have unit : 0 < BLAKE3_CHUNK_LEN := by decide
      have lower := absorbed.lower
      omega
    rw [zero, trees, LeftComplete.stack_zero] at stack
    exact .inl stack
  · have some := LeftComplete.ones_pos (n := n - 1) (by omega)
    rw [stack, pushed, values, List.length_map, List.length_cons, trees, LeftComplete.stack_length]
    exact .inr (by omega)

/-! ## All calls -/

theorem init_absorbed (message : Buffer) : Absorbed compress message 0 0 blake3_hasher_init where
  key := rfl
  chunk := by
    rw [slice_empty _ (Nat.zero_le _), chunkState_short (Nat.zero_le _)]
    rfl
  lower := Nat.zero_le _
  upper := Nat.zero_le _
  stack := .inl ⟨.inl rfl, by rw [trees, LeftComplete.stack_zero]; rfl⟩

/-- The updates take the pieces of a message from front to back. -/
theorem updates_absorbed (pieces : List Buffer) (done rest : Buffer)
    (fits : (done ++ pieces.flatten ++ rest).length ≤ BLAKE3_CHUNK_LEN * 2 ^ max_depth)
    (absorbed : Absorbed compress (done ++ pieces.flatten ++ rest) done.length n hasher) :
    ∃ next m, pieces.foldlM (blake3_hasher_update compress max_depth) hasher = some next ∧
      Absorbed compress (done ++ pieces.flatten ++ rest) (done ++ pieces.flatten).length m next := by
  induction pieces generalizing done n hasher with
  | nil =>
    refine ⟨hasher, n, rfl, ?_⟩
    rwa [List.flatten_nil, List.append_nil] at absorbed ⊢
  | cons piece pieces ih =>
    have sum : done ++ (piece :: pieces).flatten ++ rest = done ++ piece ++ pieces.flatten ++ rest := by
      rw [List.flatten_cons, List.append_assoc done piece]
    have here : slice (done ++ piece ++ pieces.flatten ++ rest) done.length (done ++ piece).length = piece := by
      rw [slice, List.append_assoc, List.append_assoc, List.drop_left, List.length_append,
        Nat.add_sub_cancel_left, List.take_left]
    rw [sum] at fits absorbed
    have total : (done ++ piece).length = done.length + piece.length := List.length_append
    have forward : done.length ≤ (done ++ piece).length := by omega
    have inside : (done ++ piece).length ≤ (done ++ piece ++ pieces.flatten ++ rest).length := by
      rw [List.append_assoc (done ++ piece)]
      exact (List.prefix_append _ _).length_le
    obtain ⟨next, m, update, further⟩ := absorbed.update fits forward inside
    rw [here] at update
    obtain ⟨last, k, run, ended⟩ := ih (done ++ piece) fits further
    refine ⟨last, k, ?_, ?_⟩
    · rw [List.foldlM_cons, update]
      exact run
    · rwa [sum, List.flatten_cons, ← List.append_assoc]

end

/-- What holds of a hasher that has taken a message: its stack has room, finalizing does not read below it, and
the digest is that of the one call. -/
def Correct (max_depth : ℕ) (message : Buffer) (hasher : Hasher) : Prop :=
  hasher.cv_stack.length ≤ max_depth + 1 ∧
    (chunk_state_len hasher.chunk = 0 → hasher.cv_stack = [] ∨ 2 ≤ hasher.cv_stack.length) ∧
    ∀ out_len, blake3_hasher_finalize compress hasher out_len = some (digest compress message out_len) ∧
      blake3_hash compress max_depth message out_len = some (digest compress message out_len)

theorem updates_correct (max_depth : ℕ) (pieces : List Buffer)
    (fits : pieces.flatten.length ≤ BLAKE3_CHUNK_LEN * 2 ^ max_depth) :
    ∃ hasher, pieces.foldlM (blake3_hasher_update compress max_depth) blake3_hasher_init = some hasher ∧
      Correct compress max_depth pieces.flatten hasher := by
  have all (pieces : List Buffer) (fits : pieces.flatten.length ≤ BLAKE3_CHUNK_LEN * 2 ^ max_depth) :
      ∃ hasher m, pieces.foldlM (blake3_hasher_update compress max_depth) blake3_hasher_init = some hasher ∧
        Absorbed compress pieces.flatten pieces.flatten.length m hasher := by
    have start : Absorbed compress ([] ++ pieces.flatten ++ []) 0 0 blake3_hasher_init := init_absorbed _
    have run := updates_absorbed pieces [] [] (by rwa [List.nil_append, List.append_nil]) start
    rwa [List.nil_append, List.append_nil] at run
  obtain ⟨hasher, m, run, absorbed⟩ := all pieces fits
  refine ⟨hasher, run, absorbed.stack_length fits, absorbed.stack_two (le_refl _), fun out_len =>
    ⟨absorbed.finalize out_len, ?_⟩⟩
  obtain ⟨once, k, single, whole⟩ := all [pieces.flatten] (by simpa using fits)
  simp only [List.foldlM_cons, List.foldlM_nil, bind_pure] at single
  rw [List.flatten_singleton] at whole
  rw [blake3_hash, single]
  exact whole.finalize out_len

/-- For every message and all its pieces, and any depth that is enough for the message, the hasher returns the
bytes of the root of the left-complete tree over the chunks, as the call on the whole message does. The depth of
the source is enough below 2^64 bytes. -/
theorem blake3_digest (pieces : List Buffer) :
    (∀ max_depth, pieces.flatten.length ≤ BLAKE3_CHUNK_LEN * 2 ^ max_depth →
      ∃ hasher, pieces.foldlM (blake3_hasher_update compress max_depth) blake3_hasher_init = some hasher ∧
        Correct compress max_depth pieces.flatten hasher) ∧
      (pieces.flatten.length < 2 ^ 64 →
        ∃ hasher,
          pieces.foldlM (blake3_hasher_update compress BLAKE3_MAX_DEPTH) blake3_hasher_init = some hasher ∧
          Correct compress BLAKE3_MAX_DEPTH pieces.flatten hasher) := by
  refine ⟨fun max_depth fits => updates_correct compress max_depth pieces fits, fun below => ?_⟩
  refine updates_correct compress BLAKE3_MAX_DEPTH pieces (Nat.le_of_lt (below.trans_eq ?_))
  decide

end

/-- Three chunks in two pieces. -/
theorem blake3_digest_chunks : ∃ hasher,
    [List.replicate 1500 1, List.replicate 1500 2].foldlM (blake3_hasher_update portable BLAKE3_MAX_DEPTH)
        blake3_hasher_init = some hasher ∧
      Correct portable BLAKE3_MAX_DEPTH [List.replicate 1500 1, List.replicate 1500 2].flatten hasher :=
  (blake3_digest portable _).2 <| by
    simp only [List.flatten_cons, List.flatten_nil, List.length_append, List.length_replicate, List.length_nil]
    decide

end Blake3

end Par3
