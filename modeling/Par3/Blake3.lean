import Par3.Bytes
import Par3.Foundations.LeftComplete

/-!
# BLAKE3

A message is cut into chunks, and a chunk into blocks that are compressed one after another. The chaining values
of the chunks are the leaves of a binary tree. The hasher takes the message in pieces: it keeps the chunk that is
not complete, or complete and perhaps the last one, and a stack of chaining values of the chunks before it.

The compression functions are parameters, and so is the depth of the tree, which says how many entries the stack
has room for. Writing behind them, or reading below the first one, gives no result.
-/

namespace Par3

namespace Blake3

def BLAKE3_OUT_LEN : ℕ := 32

def BLAKE3_BLOCK_LEN : ℕ := 64

def BLAKE3_CHUNK_LEN : ℕ := 1024

def BLAKE3_MAX_DEPTH : ℕ := 54

def CHUNK_START : UInt8 := 1

def CHUNK_END : UInt8 := 2

def PARENT : UInt8 := 4

def ROOT : UInt8 := 8

/-- The words of a key or of a chaining value -/
abbrev Words := Vector UInt32 8

def IV : Words := #v[0x6A09E667, 0xBB67AE85, 0x3C6EF372, 0xA54FF53A, 0x510E527F, 0x9B05688C, 0x1F83D9AB, 0x5BE0CD19]

/-- `store_cv_words` -/
def store_cv_words (cv_words : Words) : Buffer :=
  cv_words.toList.flatMap fun w => toLittleEndian 4 w.toNat

/-- Both compression functions, each on a chaining value, a block with its length, a counter and flags -/
structure Compression where
  blake3_compress_in_place : Words → Buffer → ℕ → ℕ → UInt8 → Words
  blake3_compress_xof : Words → Buffer → ℕ → ℕ → UInt8 → Buffer

/-! ## The portable compression -/

def MSG_SCHEDULE : Vector (Vector (Fin 16) 16) 7 := #v[
  #v[0, 1, 2, 3, 4, 5, 6, 7, 8, 9, 10, 11, 12, 13, 14, 15],
  #v[2, 6, 3, 10, 7, 0, 4, 13, 1, 11, 12, 5, 9, 14, 15, 8],
  #v[3, 4, 10, 12, 13, 2, 7, 14, 6, 5, 9, 0, 11, 15, 8, 1],
  #v[10, 7, 12, 9, 14, 3, 13, 15, 4, 0, 11, 2, 5, 8, 1, 6],
  #v[12, 13, 9, 11, 15, 10, 14, 8, 7, 2, 5, 3, 0, 1, 6, 4],
  #v[9, 14, 11, 5, 8, 12, 15, 1, 13, 3, 0, 10, 2, 6, 4, 7],
  #v[11, 15, 5, 0, 1, 9, 8, 6, 14, 10, 2, 12, 3, 4, 7, 13]]

def rotr32 (w c : UInt32) : UInt32 := (w >>> c) ||| (w <<< (32 - c))

def load32 (src : Buffer) : UInt32 := UInt32.ofNat (littleEndian (src.take 4))

def g_fn (a b c d : Fin 16) (x y : UInt32) (state : Vector UInt32 16) : Vector UInt32 16 :=
  let state := state.set a (state[a] + state[b] + x)
  let state := state.set d (rotr32 (state[d] ^^^ state[a]) 16)
  let state := state.set c (state[c] + state[d])
  let state := state.set b (rotr32 (state[b] ^^^ state[c]) 12)
  let state := state.set a (state[a] + state[b] + y)
  let state := state.set d (rotr32 (state[d] ^^^ state[a]) 8)
  let state := state.set c (state[c] + state[d])
  state.set b (rotr32 (state[b] ^^^ state[c]) 7)

def round_fn (msg : Vector UInt32 16) (state : Vector UInt32 16) (round : Fin 7) : Vector UInt32 16 :=
  let schedule := MSG_SCHEDULE[round]
  let word (i : Fin 16) := msg[schedule[i]]
  -- the columns
  let state := g_fn 0 4 8 12 (word 0) (word 1) state
  let state := g_fn 1 5 9 13 (word 2) (word 3) state
  let state := g_fn 2 6 10 14 (word 4) (word 5) state
  let state := g_fn 3 7 11 15 (word 6) (word 7) state
  -- the rows
  let state := g_fn 0 5 10 15 (word 8) (word 9) state
  let state := g_fn 1 6 11 12 (word 10) (word 11) state
  let state := g_fn 2 7 8 13 (word 12) (word 13) state
  g_fn 3 4 9 14 (word 14) (word 15) state

def compress_pre (cv : Words) (block : Buffer) (block_len counter : ℕ) (flags : UInt8) : Vector UInt32 16 :=
  let block_words : Vector UInt32 16 := Vector.ofFn fun i => load32 (block.drop (4 * i))
  let state : Vector UInt32 16 := #v[cv[0], cv[1], cv[2], cv[3], cv[4], cv[5], cv[6], cv[7],
    IV[0], IV[1], IV[2], IV[3], UInt32.ofNat counter, UInt32.ofNat (counter / 2 ^ 32), UInt32.ofNat block_len,
    flags.toUInt32]
  (List.finRange 7).foldl (round_fn block_words) state

def blake3_compress_in_place_portable (cv : Words) (block : Buffer) (block_len counter : ℕ) (flags : UInt8) :
    Words :=
  let state := compress_pre cv block block_len counter flags
  Vector.ofFn fun i => state[i.val] ^^^ state[i.val + 8]

def blake3_compress_xof_portable (cv : Words) (block : Buffer) (block_len counter : ℕ) (flags : UInt8) : Buffer :=
  let state := compress_pre cv block block_len counter flags
  let low : Words := Vector.ofFn fun i => state[i.val] ^^^ state[i.val + 8]
  let high : Words := Vector.ofFn fun i => state[i.val + 8] ^^^ cv[i]
  store_cv_words low ++ store_cv_words high

def portable : Compression where
  blake3_compress_in_place := blake3_compress_in_place_portable
  blake3_compress_xof := blake3_compress_xof_portable

/-! ## Outputs -/

/-- Ones of a number of 64 bits, which the numbers of chunks are -/
def popcnt (x : ℕ) : ℕ := LeftComplete.ones x

def round_down_to_power_of_2 (x : ℕ) : ℕ := if x = 0 then 1 else 2 ^ Nat.log2 x

/-- What is left to compress for a node, as the root or not. -/
structure Output where
  input_cv : Words
  counter : ℕ
  block : Buffer
  block_len : ℕ
  flags : UInt8

structure ChunkState where
  cv : Words
  chunk_counter : ℕ
  buf : Buffer
  buf_len : ℕ
  blocks_compressed : ℕ
  flags : UInt8

structure Hasher where
  key : Words
  chunk : ChunkState
  /-- The chaining values, the last one first. -/
  cv_stack : List Buffer

section
variable (compress : Compression)

def output_chaining_value (self : Output) : Buffer :=
  store_cv_words
    (compress.blake3_compress_in_place self.input_cv self.block self.block_len self.counter self.flags)

/-- One block of the root -/
def Output.xof (self : Output) (output_block_counter : ℕ) : Buffer :=
  compress.blake3_compress_xof self.input_cv self.block self.block_len output_block_counter (self.flags ||| ROOT)

/-- The loop over whole blocks, and what is left of the last one -/
def Output.xofBlocks (self : Output) (output_block_counter out_len : ℕ) : Buffer :=
  if out_len ≥ 64 then
    self.xof compress output_block_counter ++ self.xofBlocks (output_block_counter + 1) (out_len - 64)
  else if out_len > 0 then (self.xof compress output_block_counter).take out_len
  else []

def output_root_bytes (self : Output) (seek out_len : ℕ) : Buffer :=
  if out_len = 0 then []
  else
    let output_block_counter := seek / 64
    let offset_within_block := seek % 64
    if offset_within_block ≠ 0 then
      let available := 64 - offset_within_block
      let bytes := if out_len > available then available else out_len
      ((self.xof compress output_block_counter).drop offset_within_block).take bytes ++
        self.xofBlocks compress (output_block_counter + 1) (out_len - bytes)
    else self.xofBlocks compress output_block_counter out_len

/-! ## Chunks -/

def chunk_state_init (key : Words) (flags : UInt8) : ChunkState where
  cv := key
  chunk_counter := 0
  buf := List.replicate BLAKE3_BLOCK_LEN 0
  buf_len := 0
  blocks_compressed := 0
  flags := flags

def chunk_state_reset (self : ChunkState) (key : Words) (chunk_counter : ℕ) : ChunkState :=
  { self with
    cv := key
    chunk_counter := chunk_counter
    blocks_compressed := 0
    buf := List.replicate BLAKE3_BLOCK_LEN 0
    buf_len := 0 }

def chunk_state_len (self : ChunkState) : ℕ := BLAKE3_BLOCK_LEN * self.blocks_compressed + self.buf_len

/-- The state, and how many bytes were taken. -/
def chunk_state_fill_buf (self : ChunkState) (input : Buffer) : ChunkState × ℕ :=
  let take := min (BLAKE3_BLOCK_LEN - self.buf_len) input.length
  ({ self with
    buf := self.buf.take self.buf_len ++ input.take take ++ self.buf.drop (self.buf_len + take)
    buf_len := self.buf_len + take }, take)

def chunk_state_maybe_start_flag (self : ChunkState) : UInt8 :=
  if self.blocks_compressed = 0 then CHUNK_START else 0

/-- One block that is not the last one of its chunk -/
def ChunkState.compressBlock (self : ChunkState) (block : Buffer) : ChunkState :=
  { self with
    cv := compress.blake3_compress_in_place self.cv block BLAKE3_BLOCK_LEN self.chunk_counter
      (self.flags ||| chunk_state_maybe_start_flag self)
    blocks_compressed := self.blocks_compressed + 1 }

theorem drop_block_shorter {input : Buffer} (more : input.length > BLAKE3_BLOCK_LEN) :
    (input.drop BLAKE3_BLOCK_LEN).length < input.length := by
  rw [List.length_drop, BLAKE3_BLOCK_LEN]
  omega

/-- The loop over blocks that others follow -/
def ChunkState.compressBlocks (self : ChunkState) (input : Buffer) : ChunkState × Buffer :=
  if more : input.length > BLAKE3_BLOCK_LEN then
    have : (input.drop BLAKE3_BLOCK_LEN).length < input.length := drop_block_shorter more
    (self.compressBlock compress (input.take BLAKE3_BLOCK_LEN)).compressBlocks (input.drop BLAKE3_BLOCK_LEN)
  else (self, input)
termination_by input.length
decreasing_by exact this

def chunk_state_update (self : ChunkState) (input : Buffer) : ChunkState :=
  let (self, input) :=
    if self.buf_len > 0 then
      let (self, take) := chunk_state_fill_buf self input
      let input := input.drop take
      if input.length > 0 then
        ({ self.compressBlock compress self.buf with
          buf_len := 0
          buf := List.replicate BLAKE3_BLOCK_LEN 0 }, input)
      else (self, input)
    else (self, input)
  let (self, input) := self.compressBlocks compress input
  (chunk_state_fill_buf self input).1

def chunk_state_output (self : ChunkState) : Output where
  input_cv := self.cv
  counter := self.chunk_counter
  block := self.buf
  block_len := self.buf_len
  flags := self.flags ||| chunk_state_maybe_start_flag self ||| CHUNK_END

def parent_output (block : Buffer) (key : Words) (flags : UInt8) : Output where
  input_cv := key
  counter := 0
  block := block
  block_len := BLAKE3_BLOCK_LEN
  flags := flags ||| PARENT

/-! ## The hasher -/

def blake3_hasher_init : Hasher where
  key := IV
  chunk := chunk_state_init IV 0
  cv_stack := []

/-- The chaining value above two others -/
def Hasher.parentValue (self : Hasher) (left right : Buffer) : Buffer :=
  output_chaining_value compress (parent_output (left ++ right) self.key self.chunk.flags)

def hasher_merge_cv_stack (self : Hasher) (total_chunks : ℕ) : Option Hasher := do
  let post_merge_stack_len := popcnt total_chunks
  let cv_stack ← LeftComplete.merge (self.parentValue compress) self.cv_stack post_merge_stack_len
  some { self with cv_stack := cv_stack }

section
variable (max_depth : ℕ)

def hasher_push_cv (self : Hasher) (new_cv : Buffer) (chunk_counter : ℕ) : Option Hasher := do
  let self ← hasher_merge_cv_stack compress self chunk_counter
  if self.cv_stack.length < max_depth + 1 then some { self with cv_stack := new_cv :: self.cv_stack } else none

/-- A whole chunk of the input -/
def Hasher.pushChunk (self : Hasher) (chunk_counter : ℕ) (input : Buffer) : Option Hasher :=
  let cs := { chunk_state_init self.key self.chunk.flags with chunk_counter := chunk_counter }
  let cs := chunk_state_update compress cs input
  hasher_push_cv compress max_depth self (output_chaining_value compress (chunk_state_output cs)) cs.chunk_counter

/-- A subtree is halved until it is aligned to what is hashed so far. -/
def alignSubtree (subtree_len count_so_far : ℕ) : ℕ :=
  if apart : (subtree_len - 1) &&& count_so_far ≠ 0 then
    have : subtree_len / 2 < subtree_len := by
      refine Nat.div_lt_self ?_ (by decide)
      refine Nat.pos_of_ne_zero fun zero => apart ?_
      rw [zero, Nat.zero_sub, Nat.zero_and]
    alignSubtree (subtree_len / 2) count_so_far
  else subtree_len
termination_by subtree_len

theorem alignSubtree_pos {subtree_len : ℕ} (pos : 0 < subtree_len) (count_so_far : ℕ) :
    0 < alignSubtree subtree_len count_so_far := by
  induction subtree_len using Nat.strong_induction_on with
  | _ subtree_len ih =>
    rw [alignSubtree]
    split
    case isTrue apart =>
      refine ih _ (Nat.div_lt_self pos (by decide)) ?_
      refine Nat.div_pos ?_ (by decide)
      by_contra one
      obtain rfl : subtree_len = 1 := by omega
      exact apart (Nat.zero_and _)
    case isFalse => exact pos

theorem round_down_to_power_of_2_pos (x : ℕ) : 0 < round_down_to_power_of_2 x := by
  rw [round_down_to_power_of_2]
  split
  · exact Nat.one_pos
  · exact Nat.two_pow_pos _

/-- The loop over whole subtrees -/
def Hasher.hashSubtrees (self : Hasher) (input : Buffer) : Option (Hasher × Buffer) :=
  if more : input.length > BLAKE3_CHUNK_LEN then
    let subtree_len :=
      alignSubtree (round_down_to_power_of_2 input.length) (self.chunk.chunk_counter * BLAKE3_CHUNK_LEN)
    have : (input.drop subtree_len).length < input.length := by
      have pos : 0 < subtree_len := alignSubtree_pos (round_down_to_power_of_2_pos _) _
      rw [List.length_drop]
      omega
    let subtree_chunks := subtree_len / BLAKE3_CHUNK_LEN
    let pushed :=
      if subtree_len ≤ BLAKE3_CHUNK_LEN then
        self.pushChunk compress max_depth self.chunk.chunk_counter (input.take subtree_len)
      else
        (List.range subtree_chunks).foldlM (fun (hasher : Hasher) c =>
          hasher.pushChunk compress max_depth (self.chunk.chunk_counter + c)
            ((input.drop (c * BLAKE3_CHUNK_LEN)).take BLAKE3_CHUNK_LEN)) self
    pushed.bind fun pushed =>
      Hasher.hashSubtrees
        { pushed with chunk := { pushed.chunk with chunk_counter := pushed.chunk.chunk_counter + subtree_chunks } }
        (input.drop subtree_len)
  else some (self, input)
termination_by input.length
decreasing_by exact this

/-- The update, when no chunk is begun -/
def Hasher.updateRest (self : Hasher) (input : Buffer) : Option Hasher := do
  let (self, input) ← self.hashSubtrees compress max_depth input
  if input.length > 0 then
    let self := { self with chunk := chunk_state_update compress self.chunk input }
    hasher_merge_cv_stack compress self self.chunk.chunk_counter
  else some self

def blake3_hasher_update_base (self : Hasher) (input : Buffer) : Option Hasher :=
  if input.length = 0 then some self
  else if chunk_state_len self.chunk > 0 then
    let take := min (BLAKE3_CHUNK_LEN - chunk_state_len self.chunk) input.length
    let self := { self with chunk := chunk_state_update compress self.chunk (input.take take) }
    let input := input.drop take
    if input.length > 0 then do
      let chunk_cv := output_chaining_value compress (chunk_state_output self.chunk)
      let self ← hasher_push_cv compress max_depth self chunk_cv self.chunk.chunk_counter
      let self := { self with chunk := chunk_state_reset self.chunk self.key (self.chunk.chunk_counter + 1) }
      self.updateRest compress max_depth input
    else some self
  else self.updateRest compress max_depth input

def blake3_hasher_update (self : Hasher) (input : Buffer) : Option Hasher :=
  blake3_hasher_update_base compress max_depth self input

end

/-- The loop down the stack -/
def Hasher.joinStack (self : Hasher) (output : Output) (cvs_remaining : List Buffer) : Output :=
  cvs_remaining.foldl (fun output cv =>
    parent_output (cv ++ output_chaining_value compress output) self.key self.chunk.flags) output

def blake3_hasher_finalize (self : Hasher) (out_len : ℕ) : Option Buffer :=
  if out_len = 0 then some []
  else if self.cv_stack.length = 0 then
    some (output_root_bytes compress (chunk_state_output self.chunk) 0 out_len)
  else if chunk_state_len self.chunk > 0 then
    let output := self.joinStack compress (chunk_state_output self.chunk) self.cv_stack
    some (output_root_bytes compress output 0 out_len)
  else
    match self.cv_stack with
    | right :: left :: cvs_remaining =>
      let output := parent_output (left ++ right) self.key self.chunk.flags
      some (output_root_bytes compress (self.joinStack compress output cvs_remaining) 0 out_len)
    | _ => none

def blake3_hash (max_depth : ℕ) (input : Buffer) (out_len : ℕ) : Option Buffer := do
  let h ← blake3_hasher_update compress max_depth blake3_hasher_init input
  blake3_hasher_finalize compress h out_len

end

end Blake3

end Par3
