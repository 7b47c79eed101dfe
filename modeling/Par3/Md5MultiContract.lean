import Par3.Md5FinalBlock
import Par3.Md5Multi

/-!
# Every source has a hash of its own

The input of a region goes through a lane of its own, so that each region is a hasher by itself; the
regions that hash a source once more come after all sources, and their hashes are left out.
-/
namespace Par3

variable {compress : Md5Words → Buffer → Md5Words} {width : Md5Width}

/-! ## One region -/

/-- The words of a region. -/
def regionWords (width : Md5Width) (state : Md5Vectors) (input : ℕ) : Md5Words :=
  laneWords state (input / width.kernel.regions) (input % width.kernel.regions)

theorem wordIndex (half : ℕ) (word : Fin 4) : Fin.ofNat 4 (half * 4 + word) = word := by
  apply Fin.ext
  rw [Fin.val_ofNat]
  omega

/-- A block goes to the words of its own region. -/
theorem md5_update_block_mb_words (state : Md5Vectors) (data : ℕ → Buffer) (offset input : ℕ) :
    regionWords width (md5_update_block_mb compress width state data offset) input =
      compress (regionWords width state input) (slice (data input) offset (offset + 64)) := by
  funext word
  have half : (input / width.kernel.regions * 4 + word) / 4 = input / width.kernel.regions := by omega
  rw [regionWords, laneWords, md5_update_block_mb, half, wordIndex, Nat.div_add_mod', regionWords]

/-- The wrapped length stands for the length. -/
theorem padding_mod (length : ℕ) : MD5.padding (length % 2 ^ 64) = MD5.padding length := by
  rw [MD5.padding, MD5.padding]
  have rest : length % 2 ^ 64 % 64 = length % 64 := by omega
  have bits : length % 2 ^ 64 * 8 % 2 ^ 64 = length * 8 % 2 ^ 64 := by omega
  rw [rest, bits]

/-- The length at the end of a block, with zeros before it. -/
theorem block_length {first rest : Buffer} (room : first.length ≤ 56) (whole : (first ++ rest).length = 64)
    (length : ℕ) :
    memcpy (memcpy (first ++ rest) first.length (List.replicate (64 - 8 - first.length) 0)) (64 - 8)
        (toLittleEndian 8 length) =
      first ++ List.replicate (56 - first.length) 0 ++ toLittleEndian 8 length := by
  have behind : (rest.drop (56 - first.length)).length = 8 := by
    rw [List.length_append] at whole
    rw [List.length_drop]
    omega
  rw [memcpy_append first _ rest _ rfl, List.length_replicate, memcpy_append _ _ _ _ (by simp; omega),
    List.drop_of_length_le (by simp [behind]), List.append_nil]

/-- A region gets its data and the padding behind it. -/
theorem md5_final_block_mb_words (memory : ℕ → Buffer) (state : Md5Vectors) (data : ℕ → Buffer)
    (totalLength input : ℕ) (room : (memory input).length = 64)
    (enough : totalLength % 64 ≤ (data input).length) :
    regionWords width (md5_final_block_mb compress width memory state data 0 totalLength) input =
      (MD5.ofWords compress).absorb (regionWords width state input)
        ((data input).take (totalLength % 64) ++ MD5.padding totalLength) := by
  have small : totalLength % 64 < 64 := Nat.mod_lt _ (by decide)
  have first : slice (data input) 0 (0 + totalLength % 64) = (data input).take (totalLength % 64) := by
    rw [slice, List.drop_zero, Nat.zero_add, Nat.sub_zero]
  rw [← first]
  set rest := slice (data input) 0 (0 + totalLength % 64) with given
  have length : rest.length = totalLength % 64 := by
    rw [first, List.length_take, min_eq_left enough]
  -- the block of the region, with the mark behind the data
  have marked : (memcpy (memory input) 0 rest).set (totalLength % 64) 0x80 =
      (rest ++ [0x80]) ++ (memory input).drop (rest.length + 1) := by
    have more : rest.length < (memory input).length := by omega
    rw [memcpy, List.take_zero, List.nil_append, Nat.zero_add, ← length,
      List.set_append_right _ _ (le_refl _), Nat.sub_self, List.drop_eq_getElem_cons more,
      List.set_cons_zero, List.append_assoc]
    rfl
  have whole : ((rest ++ [0x80]) ++ (memory input).drop (rest.length + 1)).length = 64 := by
    simp
    omega
  have end_ : (rest ++ [(0x80 : UInt8)]).length = totalLength % 64 + 1 := by simp [length]
  rw [md5_final_block_mb]
  dsimp only
  by_cases short : totalLength % 64 + 1 ≤ 64 - 8
  · rw [if_pos short]
    dsimp only
    rw [md5_update_block_mb_words, ← given, marked, ← end_, block_length (by omega) whole]
    have count : (119 - totalLength % 64) % 64 = 56 - (totalLength % 64 + 1) := by omega
    rw [MD5.padding, count, end_]
    have block : rest ++ 0x80 :: (List.replicate (56 - (totalLength % 64 + 1)) 0 ++
        toLittleEndian 8 (totalLength * 8 % 2 ^ 64)) =
          rest ++ [0x80] ++ List.replicate (56 - (totalLength % 64 + 1)) 0 ++
            toLittleEndian 8 (totalLength * 8 % 2 ^ 64) := by simp
    have full : (rest ++ [(0x80 : UInt8)] ++ List.replicate (56 - (totalLength % 64 + 1)) 0 ++
        toLittleEndian 8 (totalLength * 8 % 2 ^ 64)).length = 64 := by
      simp
      omega
    rw [block, MD5.absorb_one _ full, slice, List.drop_zero, List.take_of_length_le (by omega)]
  · rw [if_neg short]
    dsimp only
    rw [md5_update_block_mb_words, md5_update_block_mb_words, ← given, marked, ← end_]
    have zeros : memcpy (rest ++ [0x80] ++ (memory input).drop (rest.length + 1)) (rest ++ [(0x80 : UInt8)]).length
        (List.replicate (64 - (rest ++ [(0x80 : UInt8)]).length) 0) =
          rest ++ [0x80] ++ List.replicate (63 - rest.length) 0 := by
      rw [memcpy_append _ _ _ _ rfl, List.drop_of_length_le (by simp; omega), List.append_nil, List.length_append,
        List.length_singleton, Nat.sub_add_eq, Nat.sub_right_comm]
    set head := rest ++ [(0x80 : UInt8)] ++ List.replicate (63 - rest.length) 0 with block
    have headLength : head.length = 64 := by
      rw [block]
      simp
      omega
    have count : (119 - totalLength % 64) % 64 = 63 - rest.length + 56 := by omega
    have split : rest ++ MD5.padding totalLength =
        head ++ (List.replicate 56 0 ++ toLittleEndian 8 (totalLength * 8 % 2 ^ 64)) := by
      rw [MD5.padding, count, List.replicate_add, block]
      simp
    have last := @block_length [] head (by simp) (by simpa using headLength) (totalLength * 8 % 2 ^ 64)
    rw [zeros, split, MD5.absorb_block _ headLength, MD5.absorb_one _ (by simp)]
    rw [List.nil_append, List.nil_append, List.length_nil] at last
    rw [last, slice, slice, List.drop_zero, List.take_of_length_le (by omega), List.drop_zero,
      List.take_of_length_le (by simp)]

/-- Data that is given in two parts: the second part continues with what is left over of the first. -/
theorem MD5.absorb_more {md5 : MD5} (state : md5.State) (data more : Buffer) :
    md5.absorb state (data ++ more) =
      md5.absorb (md5.absorb state data) (data.drop (data.length / 64 * 64) ++ more) := by
  have whole : 64 ∣ (data.take (data.length / 64 * 64)).length := by
    rw [List.length_take, min_eq_left (Nat.div_mul_le_self _ _)]
    exact Nat.dvd_mul_left 64 _
  have short : (data.drop (data.length / 64 * 64)).length < 64 := by
    rw [List.length_drop]
    omega
  have first : md5.absorb state data = md5.absorb state (data.take (data.length / 64 * 64)) := by
    conv_lhs => rw [← List.take_append_drop (data.length / 64 * 64) data]
    rw [MD5.absorb_append _ whole, MD5.absorb_short _ short]
  rw [first, ← MD5.absorb_append _ whole, ← List.append_assoc, List.take_append_drop]

/-- A region has had these bytes: whole blocks in its words, and what is left over in its block. -/
structure RegionHolds (compress : Md5Words → Buffer → Md5Words) (width : Md5Width) (self : Md5Hasher)
    (input : ℕ) (bytes : Buffer) : Prop where
  words : regionWords width self.state input = (MD5.ofWords compress).absorb (MD5.ofWords compress).init bytes
  room : (self.tmp input).length = 64
  rest : (self.tmp input).take self.tmpLen = bytes.drop (bytes.length / 64 * 64)
  tmpLen : self.tmpLen = bytes.length % 64
  dataLen : self.dataLen = bytes.length % 2 ^ 64

namespace Md5Hasher

theorem reset_holds (memory : ℕ → Buffer) (input : ℕ) (room : (memory input).length = 64) :
    RegionHolds compress width (reset compress memory) input [] where
  words := funext fun word => congrArg (MD5.ofWords compress).init (wordIndex _ word)
  room := room
  rest := rfl
  tmpLen := rfl
  dataLen := rfl

/-- The loop takes whole blocks from a position on and leaves the rest in the block of the region. -/
theorem updateBlocks_holds (data : ℕ → Buffer) {len input : ℕ} (given : (data input).length = len)
    (rounds : ℕ) (self : Md5Hasher) (p : ℕ) (inside : p ≤ len) (enough : len - p < rounds)
    (room : (self.tmp input).length = 64) :
    let after := updateBlocks compress width data len rounds self p
    regionWords width after.state input =
        (MD5.ofWords compress).absorb (regionWords width self.state input) ((data input).drop p) ∧
      (after.tmp input).length = 64 ∧
      (after.tmp input).take after.tmpLen = (data input).drop (p + (len - p) / 64 * 64) ∧
      after.tmpLen = (len - p) % 64 ∧ after.dataLen = self.dataLen := by
  induction rounds generalizing self p with
  | zero => omega
  | succ rounds ih =>
    have left : ((data input).drop p).length = len - p := by rw [List.length_drop, given]
    rw [updateBlocks]
    by_cases whole : p + (MD5_BLOCKSIZE - 1) < len
    · rw [if_pos whole]
      rw [MD5_BLOCKSIZE] at whole
      have next := ih
        { self with state := md5_update_block_mb compress width self.state data p } (p + 64) (by omega)
        (by omega) room
      have blocks : (len - p) / 64 = (len - (p + 64)) / 64 + 1 := by omega
      have end_ : p + ((len - (p + 64)) / 64 + 1) * 64 = p + 64 + (len - (p + 64)) / 64 * 64 := by ring
      have rest : (len - p) % 64 = (len - (p + 64)) % 64 := by omega
      have block : slice (data input) p (p + 64) = ((data input).drop p).take 64 := by
        rw [slice, Nat.add_sub_cancel_left]
      rw [md5_update_block_mb_words, block] at next
      dsimp only at next ⊢
      rw [blocks, end_, rest, MD5.absorb_take _ (by omega), List.drop_drop]
      exact next
    · rw [if_neg whole]
      rw [MD5_BLOCKSIZE] at whole
      have none : (len - p) / 64 = 0 := by omega
      have rest : (len - p) % 64 = len - p := by omega
      rw [none, rest, Nat.zero_mul, Nat.add_zero, MD5.absorb_short _ (by omega)]
      by_cases more : len - p ≠ 0
      · have length : (slice (data input) p len).length = len - p := slice_length _ _ _ (le_of_eq given.symm)
        have copied : slice (data input) p len = (data input).drop p := by
          rw [slice, List.take_of_length_le (le_of_eq left)]
        rw [if_pos more]
        dsimp only
        refine ⟨rfl, ?_, ?_, rfl, rfl⟩
        · rw [memcpy, List.take_zero, List.nil_append, Nat.zero_add, List.length_append, length,
            List.length_drop, room]
          omega
        · rw [memcpy, List.take_zero, List.nil_append, ← length, List.take_left, copied]
      · rw [if_neg more]
        dsimp only
        refine ⟨rfl, room, ?_, by omega, rfl⟩
        rw [List.take_zero, List.drop_of_length_le (by omega)]

/-- A region has had the new bytes behind the earlier ones. -/
theorem update_holds {self : Md5Hasher} {input : ℕ} {bytes : Buffer}
    (holds : RegionHolds compress width self input bytes) (data : ℕ → Buffer) {len : ℕ}
    (given : (data input).length = len) :
    RegionHolds compress width (self.update compress width data len) input (bytes ++ data input) := by
  obtain ⟨words, room, rest, tmpLen, dataLen⟩ := holds
  have small : bytes.length % 64 < 64 := Nat.mod_lt _ (by decide)
  have restLength : (bytes.drop (bytes.length / 64 * 64)).length = bytes.length % 64 := by
    rw [List.length_drop]
    omega
  have total : (bytes ++ data input).length = bytes.length + len := by rw [List.length_append, given]
  have counted : (self.dataLen + len) % 2 ^ 64 = (bytes ++ data input).length % 2 ^ 64 := by
    rw [dataLen, total, Nat.mod_add_mod]
  rw [update]
  dsimp only
  by_cases waiting : self.tmpLen ≠ 0
  · rw [if_pos waiting]
    by_cases short : len < MD5_BLOCKSIZE - self.tmpLen
    · rw [if_pos short, if_pos short]
      rw [MD5_BLOCKSIZE] at short
      have copied : slice (data input) 0 len = data input := by
        rw [slice, List.drop_zero, List.take_of_length_le (by omega)]
      have taken : ((self.tmp input).take self.tmpLen).length = self.tmpLen := by
        rw [List.length_take, room]
        omega
      have blocks : (bytes ++ data input).length / 64 = bytes.length / 64 := by omega
      refine ⟨?_, ?_, ?_, by dsimp only; omega, counted⟩
      · rw [MD5.absorb_more, ← words, MD5.absorb_short _ (by rw [List.length_append]; omega)]
      · dsimp only
        rw [copied, memcpy, List.length_append, List.length_append, taken, List.length_drop, room, given]
        omega
      · dsimp only
        rw [copied, memcpy, List.take_left' (by rw [List.length_append, taken, given]), rest, blocks,
          List.drop_append_of_le_length (Nat.div_mul_le_self _ _)]
    · rw [if_neg short, if_neg short]
      rw [MD5_BLOCKSIZE] at short ⊢
      set wanted := 64 - self.tmpLen with needed
      have copied : slice (data input) 0 wanted = (data input).take wanted := by
        rw [slice, List.drop_zero, Nat.sub_zero]
      have block : memcpy (self.tmp input) self.tmpLen (slice (data input) 0 wanted) =
          bytes.drop (bytes.length / 64 * 64) ++ (data input).take wanted := by
        have beyond : (self.tmp input).drop (self.tmpLen + ((data input).take wanted).length) = [] :=
          List.drop_of_length_le (by rw [List.length_take]; omega)
        rw [copied, memcpy, rest, beyond, List.append_nil]
      have full : (bytes.drop (bytes.length / 64 * 64) ++ (data input).take wanted).length = 64 := by
        rw [List.length_append, restLength, List.length_take]
        omega
      obtain ⟨absorbed, filled, behind, left, same⟩ := @updateBlocks_holds compress width
        data len input given (len + 1)
        { self with
          dataLen := (self.dataLen + len) % 2 ^ 64
          tmp := fun input => memcpy (self.tmp input) self.tmpLen (slice (data input) 0 wanted)
          state := md5_update_block_mb compress width self.state
            (fun input => memcpy (self.tmp input) self.tmpLen (slice (data input) 0 wanted)) 0 }
        wanted (by omega) (by omega) (by dsimp only; rw [block, full])
      have split : bytes.drop (bytes.length / 64 * 64) ++ data input =
          (bytes.drop (bytes.length / 64 * 64) ++ (data input).take wanted) ++ (data input).drop wanted := by
        rw [List.append_assoc, List.take_append_drop]
      have position : (bytes ++ data input).length / 64 * 64 =
          bytes.length + (wanted + (len - wanted) / 64 * 64) := by omega
      refine ⟨?_, filled, ?_, ?_, same.trans counted⟩
      · rw [MD5.absorb_more, ← words, split, MD5.absorb_block _ full]
        refine absorbed.trans ?_
        rw [md5_update_block_mb_words, block, slice, List.drop_zero, List.take_of_length_le (by omega)]
      · rw [position, List.drop_length_add_append]
        exact behind
      · refine left.trans ?_
        omega
  · rw [if_neg waiting]
    obtain ⟨absorbed, filled, behind, left, same⟩ := @updateBlocks_holds compress width
      data len input given (len + 1) { self with dataLen := (self.dataLen + len) % 2 ^ 64 } 0
        (Nat.zero_le _) (by omega) room
    have none : bytes.drop (bytes.length / 64 * 64) = [] := List.drop_of_length_le (by omega)
    have position : (bytes ++ data input).length / 64 * 64 = bytes.length + (0 + (len - 0) / 64 * 64) := by omega
    refine ⟨?_, filled, ?_, ?_, same.trans counted⟩
    · rw [MD5.absorb_more, ← words, none, List.nil_append]
      exact absorbed
    · rw [position, List.drop_length_add_append]
      exact behind
    · refine left.trans ?_
      omega

/-- The region ends with the hash of its bytes. -/
theorem end_words {self : Md5Hasher} {input : ℕ} {bytes : Buffer}
    (holds : RegionHolds compress width self input bytes) (memory : ℕ → Buffer)
    (room : (memory input).length = 64) :
    (MD5.ofWords compress).bytes (regionWords width (self.end_ compress width memory).state input) =
      (MD5.ofWords compress).hash bytes := by
  obtain ⟨words, filled, rest, tmpLen, dataLen⟩ := holds
  have left : self.dataLen % 64 = self.tmpLen := by omega
  have enough : self.dataLen % 64 ≤ (self.tmp input).length := by omega
  rw [end_, md5_final_block_mb_words _ _ _ _ _ room enough, left, rest, words, dataLen, padding_mod,
    ← MD5.absorb_more, MD5.hash]

end Md5Hasher

namespace Md5Width

theorem regions_pos (width : Md5Width) : 0 < width.regions := by
  have base := width.kernel.regions_pos
  rw [regions]
  split <;> omega

theorem regions_le (width : Md5Width) : width.regions ≤ 2 * width.kernel.regions := by
  rw [regions]
  split <;> omega

theorem get1_eq (self : Md5Hasher) {input : ℕ} (inside : input < width.regions) :
    width.get1 self input = storeDwords 4 fun word => regionWords width self.state input (Fin.ofNat 4 word) := by
  rw [get1, Md5Kernel.extract_eq _ _ (inside.trans_le width.regions_le)]
  refine storeDwords_congr fun word below => ?_
  have index : (Fin.ofNat 4 word : ℕ) = word := Nat.mod_eq_of_lt below
  rw [laneState, regionWords, laneWords, index]

/-- All hashes of a hasher, those of the first half first. -/
theorem get_eq (self : Md5Hasher) :
    width.get self = (List.range width.regions).flatMap (width.get1 self) := by
  have lanes : ∀ group, width.kernel.regions * group + width.kernel.regions ≤ width.regions →
      width.kernel.extractAll self.state group =
        (List.range width.kernel.regions).flatMap fun lane =>
          width.get1 self (width.kernel.regions * group + lane) := by
    intro group inside
    rw [Md5Kernel.extractAll_eq]
    refine List.flatMap_congr fun lane member => ?_
    have below : lane < width.kernel.regions := List.mem_range.mp member
    rw [get1, Md5Kernel.extract_eq _ _ (by have := width.regions_le; omega), Nat.mul_add_div (by omega),
      Nat.div_eq_of_lt below, Nat.add_zero, Nat.mul_add_mod, Nat.mod_eq_of_lt below]
  rw [get]
  by_cases twice : width.interleaved
  · have regions : width.regions = width.kernel.regions + width.kernel.regions := by
      rw [Md5Width.regions, if_pos twice, Nat.mul_two]
    rw [if_pos twice, lanes 0 (by omega), lanes 1 (by omega), regions, List.range_add, List.flatMap_append,
      List.flatMap_map, Nat.mul_zero, Nat.mul_one]
    simp only [Nat.zero_add]
  · have regions : width.regions = width.kernel.regions := by rw [Md5Width.regions, if_neg twice]
    rw [if_neg twice, lanes 0 (by omega), regions, List.append_nil, Nat.mul_zero]
    simp only [Nat.zero_add]

end Md5Width

/-! ## The chain of hashers -/

namespace MD5Multi

/-- Something holds of each region, with the data of its source. -/
def Dealt (holds : Md5Width → Md5Hasher → ℕ → Buffer → Prop) (lastCtxDataDup : ℕ) :
    List (Md5Width × Md5Hasher) → (ℕ → Buffer) → Prop
  | [], _ => True
  | [(width, last)], bytes => ∀ input < width.regions,
    holds width last input (lastCtxData (width.regions - lastCtxDataDup) bytes input)
  | (width, first) :: others, bytes =>
    (∀ input < width.regions, holds width first input (bytes input)) ∧
      Dealt holds lastCtxDataDup others fun i => bytes (i + width.regions)

/-- The sources of a chain. -/
def count (lastCtxDataDup : ℕ) (ctx : List Md5Width) : ℕ := (ctx.map Md5Width.regions).sum - lastCtxDataDup

/-- What is left out is less than the last hasher has. -/
def Spare (lastCtxDataDup : ℕ) (ctx : List Md5Width) : Prop :=
  ∀ last ∈ ctx.getLast?, lastCtxDataDup < last.regions

variable {lastCtxDataDup : ℕ}

theorem Spare.others {first next : Md5Width} {others : List Md5Width}
    (spare : Spare lastCtxDataDup (first :: next :: others)) : Spare lastCtxDataDup (next :: others) := by
  rwa [Spare, List.getLast?_cons_cons] at spare

theorem Spare.lt {first : Md5Width} {others : List Md5Width} (spare : Spare lastCtxDataDup (first :: others)) :
    lastCtxDataDup < ((first :: others).map Md5Width.regions).sum := by
  induction others generalizing first with
  | nil => simpa using spare first rfl
  | cons next others ih =>
    have less := ih spare.others
    rw [List.map_cons, List.sum_cons]
    omega

theorem count_cons {first next : Md5Width} {others : List Md5Width}
    (spare : Spare lastCtxDataDup (first :: next :: others)) :
    count lastCtxDataDup (first :: next :: others) = first.regions + count lastCtxDataDup (next :: others) := by
  have less := spare.others.lt
  rw [count, count, List.map_cons, List.sum_cons]
  omega

theorem count_singleton (last : Md5Width) : count lastCtxDataDup [last] = last.regions - lastCtxDataDup := by
  rw [count, List.map_singleton, List.sum_singleton]

variable {holds : Md5Width → Md5Hasher → ℕ → Buffer → Prop}

theorem dealt_cons {width : Md5Width} {first : Md5Hasher} {others : List (Md5Width × Md5Hasher)}
    (more : others ≠ []) (bytes : ℕ → Buffer) :
    Dealt holds lastCtxDataDup ((width, first) :: others) bytes ↔
      (∀ input < width.regions, holds width first input (bytes input)) ∧
        Dealt holds lastCtxDataDup others fun i => bytes (i + width.regions) := by
  obtain ⟨next, others, rfl⟩ := List.exists_cons_of_ne_nil more
  exact Iff.rfl

theorem update_widths (ctx : List (Md5Width × Md5Hasher)) (data : ℕ → Buffer) (len : ℕ) :
    (update compress lastCtxDataDup ctx data len).map Prod.fst = ctx.map Prod.fst := by
  induction ctx generalizing data with
  | nil => rfl
  | cons first others ih =>
    cases others with
    | nil => rfl
    | cons next others => exact congrArg (first.1 :: ·) (ih _)

theorem lastCtxData_append (lastNumRegions : ℕ) (bytes data : ℕ → Buffer) (input : ℕ) :
    lastCtxData lastNumRegions bytes input ++ lastCtxData lastNumRegions data input =
      lastCtxData lastNumRegions (fun i => bytes i ++ data i) input := by
  rw [lastCtxData, lastCtxData, lastCtxData]
  split <;> rfl

/-- An update continues the data of each region with that of its source. -/
theorem update_dealt (ctx : List (Md5Width × Md5Hasher)) (bytes data : ℕ → Buffer) (len : ℕ)
    (spare : Spare lastCtxDataDup (ctx.map Prod.fst))
    (given : ∀ i < count lastCtxDataDup (ctx.map Prod.fst), (data i).length = len)
    (dealt : Dealt (RegionHolds compress) lastCtxDataDup ctx bytes) :
    Dealt (RegionHolds compress) lastCtxDataDup (update compress lastCtxDataDup ctx data len)
      fun i => bytes i ++ data i := by
  induction ctx generalizing bytes data with
  | nil => trivial
  | cons first others ih =>
    obtain ⟨width, first⟩ := first
    cases others with
    | nil =>
      have less : lastCtxDataDup < width.regions := spare width rfl
      rw [List.map_singleton, count_singleton] at given
      dsimp only at given
      intro input (inside : input < width.regions)
      set ptr := if lastCtxDataDup ≠ 0 then lastCtxData (width.regions - lastCtxDataDup) data else data with pointers
      have source : ptr input = lastCtxData (width.regions - lastCtxDataDup) data input := by
        rw [pointers]
        split
        · rfl
        · rw [lastCtxData, if_pos (by omega)]
      have length : (ptr input).length = len := by
        rw [source, lastCtxData]
        split
        · exact given input ‹_›
        · exact given 0 (by omega)
      have next := Md5Hasher.update_holds (dealt input inside) ptr length
      rwa [source, lastCtxData_append] at next
    | cons next others =>
      rw [dealt_cons (List.cons_ne_nil _ _)] at dealt
      rw [List.map_cons, List.map_cons] at spare given
      rw [count_cons spare, ← List.map_cons] at given
      dsimp only at given
      have rest := ih (fun i => bytes (i + width.regions)) (fun i => data (i + width.regions))
        spare.others (fun i below => given _ (by omega)) dealt.2
      have more : update compress lastCtxDataDup (next :: others) (fun i => data (i + width.regions)) len ≠ [] := by
        intro none
        have widths := @update_widths compress lastCtxDataDup (next :: others)
          (fun i => data (i + width.regions)) len
        rw [none] at widths
        cases widths
      refine (dealt_cons more _).mpr ⟨fun input inside => ?_, rest⟩
      exact Md5Hasher.update_holds (dealt.1 input inside) data (given input (by omega))

theorem end_cons (memory : ℕ → ℕ → Buffer) (first : Md5Width × Md5Hasher)
    (others : List (Md5Width × Md5Hasher)) :
    end_ compress memory (first :: others) =
      (first.1, first.2.end_ compress first.1 (memory 0)) :: end_ compress (fun index => memory (index + 1)) others := by
  rw [end_, List.mapIdx_cons, end_]

theorem end_widths (memory : ℕ → ℕ → Buffer) (ctx : List (Md5Width × Md5Hasher)) :
    (end_ compress memory ctx).map Prod.fst = ctx.map Prod.fst := by
  induction ctx generalizing memory with
  | nil => rfl
  | cons first others ih =>
    rw [end_cons, List.map_cons, List.map_cons, ih]

/-- The hash that a region gives is that of the data. -/
def Hashed (compress : Md5Words → Buffer → Md5Words) (width : Md5Width) (self : Md5Hasher) (input : ℕ)
    (bytes : Buffer) : Prop :=
  width.get1 self input = (MD5.ofWords compress).hash bytes

theorem end_dealt (memory : ℕ → ℕ → Buffer) (room : ∀ index input, (memory index input).length = 64)
    (ctx : List (Md5Width × Md5Hasher)) (bytes : ℕ → Buffer)
    (dealt : Dealt (RegionHolds compress) lastCtxDataDup ctx bytes) :
    Dealt (Hashed compress) lastCtxDataDup (end_ compress memory ctx) bytes := by
  have region : ∀ (width : Md5Width) self input data index, input < width.regions →
      RegionHolds compress width self input data →
        Hashed compress width (self.end_ compress width (memory index)) input data := by
    intro width self input data index inside holds
    rw [Hashed, Md5Width.get1_eq _ inside]
    exact Md5Hasher.end_words holds (memory index) (room index input)
  induction ctx generalizing bytes memory with
  | nil => trivial
  | cons first others ih =>
    rw [end_cons]
    cases others with
    | nil => exact fun input inside => region _ _ _ _ 0 inside (dealt input inside)
    | cons next others =>
      have rest := ih (fun index => memory (index + 1)) (fun index => room (index + 1))
        (fun i => bytes (i + first.1.regions)) dealt.2
        (fun width self input data index => region width self input data (index + 1))
      rw [end_cons] at rest ⊢
      exact ⟨fun input inside => region _ _ _ _ 0 inside (dealt.1 input inside), rest⟩

theorem reset_dealt (memory : ℕ → ℕ → Buffer) (room : ∀ index input, (memory index input).length = 64)
    (ctx : List Md5Width) :
    Dealt (RegionHolds compress) lastCtxDataDup
      (ctx.mapIdx fun index width => (width, Md5Hasher.reset compress (memory index))) fun _ => [] := by
  induction ctx generalizing memory with
  | nil => trivial
  | cons first others ih =>
    rw [List.mapIdx_cons]
    cases others with
    | nil =>
      intro input _
      have none : lastCtxData (first.regions - lastCtxDataDup) (fun _ => []) input = [] := ite_self _
      rw [none]
      exact Md5Hasher.reset_holds _ _ (room 0 input)
    | cons next others =>
      have rest := ih (fun index => memory (index + 1)) fun index => room (index + 1)
      rw [List.mapIdx_cons] at rest ⊢
      exact ⟨fun input _ => Md5Hasher.reset_holds _ _ (room 0 input), rest⟩

theorem reset_widths (memory : ℕ → ℕ → Buffer) (ctx : List Md5Width) :
    (ctx.mapIdx fun index width => (width, Md5Hasher.reset compress (memory index))).map Prod.fst = ctx := by
  induction ctx generalizing memory with
  | nil => rfl
  | cons first others ih => rw [List.mapIdx_cons, List.map_cons, ih]

/-- The hash of a source is that of its region. -/
theorem get1_dealt (ctx : List (Md5Width × Md5Hasher)) (bytes : ℕ → Buffer)
    (spare : Spare lastCtxDataDup (ctx.map Prod.fst)) (dealt : Dealt (Hashed compress) lastCtxDataDup ctx bytes)
    {i : ℕ} (below : i < count lastCtxDataDup (ctx.map Prod.fst)) :
    get1 ctx i = some ((MD5.ofWords compress).hash (bytes i)) := by
  induction ctx generalizing bytes i with
  | nil => simp [count] at below
  | cons first others ih =>
    obtain ⟨width, first⟩ := first
    rw [get1]
    cases others with
    | nil =>
      rw [List.map_singleton, count_singleton] at below
      dsimp only at below
      have hashed := dealt i (show i < width.regions by omega)
      rw [Hashed, lastCtxData, if_pos below] at hashed
      rw [if_pos (by omega), hashed]
    | cons next others =>
      rw [List.map_cons, List.map_cons] at spare below
      rw [count_cons spare, ← List.map_cons] at below
      dsimp only at below
      by_cases inside : i < width.regions
      · rw [if_pos inside]
        exact congrArg some (dealt.1 i inside)
      · have place : i - width.regions + width.regions = i := by omega
        have rest := ih _ spare.others dealt.2 (i := i - width.regions) (by omega)
        rw [if_neg inside, rest, place]

/-- Pieces of one length, of which some are left out. -/
theorem take_pieces {count all length : ℕ} (fewer : count ≤ all) (piece : ℕ → Buffer)
    (each : ∀ i, (piece i).length = length) :
    ((List.range all).flatMap piece).take (length * count) = (List.range count).flatMap piece := by
  obtain ⟨more, rfl⟩ := Nat.exists_eq_add_of_le fewer
  have first : ((List.range count).flatMap piece).length = length * count := by
    rw [List.length_flatMap, List.map_congr_left fun i _ => each i]
    simp [Nat.mul_comm]
  rw [List.range_add, List.flatMap_append, List.take_left' first]

/-- The hashes of all sources, in order. -/
theorem get_dealt (ctx : List (Md5Width × Md5Hasher)) (bytes : ℕ → Buffer)
    (spare : Spare lastCtxDataDup (ctx.map Prod.fst)) (dealt : Dealt (Hashed compress) lastCtxDataDup ctx bytes) :
    get lastCtxDataDup ctx = (List.range (count lastCtxDataDup (ctx.map Prod.fst))).flatMap fun i =>
      (MD5.ofWords compress).hash (bytes i) := by
  induction ctx generalizing bytes with
  | nil => simp [count, get]
  | cons first others ih =>
    obtain ⟨width, first⟩ := first
    cases others with
    | nil =>
      have pieces : ((List.range width.regions).flatMap (width.get1 first)).take
          (16 * (width.regions - lastCtxDataDup)) =
            (List.range (width.regions - lastCtxDataDup)).flatMap (width.get1 first) := by
        rw [List.flatMap_congr fun input member => Md5Width.get1_eq first (List.mem_range.mp member),
          take_pieces (Nat.sub_le _ _) _ fun _ => (MD5.ofWords compress).bytes_length _]
        refine List.flatMap_congr fun input member => (Md5Width.get1_eq first ?_).symm
        exact (List.mem_range.mp member).trans_le (Nat.sub_le _ _)
      have taken : get lastCtxDataDup [(width, first)] =
          (List.range (width.regions - lastCtxDataDup)).flatMap (width.get1 first) := by
        rw [get]
        split
        · rw [Md5Width.get_eq, pieces]
        · have none : lastCtxDataDup = 0 := by omega
          rw [Md5Width.get_eq, none, Nat.sub_zero]
      rw [taken, List.map_singleton, count_singleton]
      refine List.flatMap_congr fun i member => ?_
      have below : i < width.regions - lastCtxDataDup := List.mem_range.mp member
      have hashed := dealt i (show i < width.regions by omega)
      rwa [Hashed, lastCtxData, if_pos below] at hashed
    | cons next others =>
      rw [List.map_cons, List.map_cons] at spare ⊢
      rw [count_cons spare, ← List.map_cons, List.range_add, List.flatMap_append, List.flatMap_map, get,
        ih _ spare.others dealt.2, Md5Width.get_eq]
      · congr 1
        · exact List.flatMap_congr fun i member => dealt.1 i (List.mem_range.mp member)
        · exact List.flatMap_congr fun i _ => by rw [Nat.add_comm]
      · exact List.cons_ne_nil _ _

/-! ## The chain that the constructor makes -/

/-- The sources that the hashers of the largest width do not take are fewer than one of them has. -/
theorem addCtx_rest (width : Md5Width) (rounds srcCount : ℕ) (enough : srcCount ≤ rounds) :
    ((addCtx width rounds srcCount).1.map Md5Width.regions).sum + (addCtx width rounds srcCount).2 = srcCount ∧
      (addCtx width rounds srcCount).2 < width.regions := by
  have pos := width.regions_pos
  induction rounds generalizing srcCount with
  | zero =>
    obtain rfl : srcCount = 0 := by omega
    exact ⟨rfl, pos⟩
  | succ rounds ih =>
    rw [addCtx]
    by_cases more : srcCount ≥ width.regions
    · have rest := ih (srcCount - width.regions) (by omega)
      rw [if_pos more]
      dsimp only
      rw [List.map_cons, List.sum_cons]
      omega
    · rw [if_neg more]
      exact ⟨Nat.zero_add _, Nat.not_le.mp more⟩

/-- The largest width is among the last hashers, too. -/
theorem largest_mem (level : MD5MultiLevels) (platform : Md5Platform) :
    (true, largest level platform) ∈ lastCtx level platform := by
  cases level <;> cases platform <;> simp [lastCtx, largest, MD5MultiLevels.rank]

/-- The constructor finds hashers for any number of sources. -/
theorem hashers_cover (level : MD5MultiLevels) (platform : Md5Platform) {srcCount : ℕ} (pos : 0 < srcCount) :
    ∃ multi : MD5Multi, hashers level platform srcCount = some (multi.ctx, multi.lastCtxDataDup) ∧
      multi.sources = srcCount := by
  obtain ⟨sum, less⟩ := addCtx_rest (largest level platform) srcCount srcCount (le_refl _)
  rw [hashers]
  set added := addCtx (largest level platform) srcCount srcCount with first
  by_cases none : added.2 = 0
  · have taken : added.1 ≠ [] := by
      intro empty
      rw [empty, none] at sum
      exact pos.ne sum
    refine ⟨⟨added.1, taken, 0, Md5Width.regions_pos _⟩, if_pos none, ?_⟩
    rw [sources, Nat.sub_zero, ← sum, none, Nat.add_zero]
  · have found : ((lastCtx level platform).find? fun candidate =>
        candidate.1 && added.2 ≤ candidate.2.regions).isSome := by
      rw [List.find?_isSome]
      exact ⟨_, largest_mem level platform, by simpa using less.le⟩
    obtain ⟨candidate, is⟩ := Option.isSome_iff_exists.mp found
    have fits := List.find?_some is
    rw [Bool.and_eq_true, decide_eq_true_eq] at fits
    refine ⟨⟨added.1 ++ [candidate.2], List.concat_ne_nil _ _, candidate.2.regions - added.2, ?_⟩, ?_, ?_⟩
    · rw [List.getLast_append_singleton]
      omega
    · dsimp only
      rw [if_neg none, is, Option.map_some]
    · rw [sources]
      dsimp only
      rw [List.map_append, List.sum_append, List.map_singleton, List.sum_singleton]
      omega

/-! ## All sources -/

/-- The hashers after updates, each with the data of all sources and their length. -/
def updates (compress : Md5Words → Buffer → Md5Words) (lastCtxDataDup : ℕ) (ctx : List (Md5Width × Md5Hasher))
    (calls : List ((ℕ → Buffer) × ℕ)) : List (Md5Width × Md5Hasher) :=
  calls.foldl (fun ctx call => update compress lastCtxDataDup ctx call.1 call.2) ctx

theorem updates_widths (ctx : List (Md5Width × Md5Hasher)) (calls : List ((ℕ → Buffer) × ℕ)) :
    (updates compress lastCtxDataDup ctx calls).map Prod.fst = ctx.map Prod.fst := by
  induction calls generalizing ctx with
  | nil => rfl
  | cons call calls ih =>
    rw [updates, List.foldl_cons, ← updates, ih, update_widths]

theorem updates_dealt (ctx : List (Md5Width × Md5Hasher)) (calls : List ((ℕ → Buffer) × ℕ)) (bytes : ℕ → Buffer)
    (spare : Spare lastCtxDataDup (ctx.map Prod.fst))
    (given : ∀ call ∈ calls, ∀ i < count lastCtxDataDup (ctx.map Prod.fst), (call.1 i).length = call.2)
    (dealt : Dealt (RegionHolds compress) lastCtxDataDup ctx bytes) :
    Dealt (RegionHolds compress) lastCtxDataDup (updates compress lastCtxDataDup ctx calls)
      fun i => bytes i ++ calls.flatMap fun call => call.1 i := by
  induction calls generalizing ctx bytes with
  | nil => simpa [updates] using dealt
  | cons call calls ih =>
    have next := update_dealt ctx bytes call.1 call.2 spare (given call List.mem_cons_self) dealt
    have widths := @update_widths compress lastCtxDataDup ctx call.1 call.2
    have rest := ih _ _ (by rwa [widths])
      (by rw [widths]; exact fun later member => given later (List.mem_cons_of_mem _ member)) next
    rw [updates, List.foldl_cons, ← updates]
    simpa only [List.flatMap_cons, List.append_assoc] using rest

end MD5Multi

open MD5Multi in
/-- The constructor makes hashers for any number of sources. With any chain of hashers and any updates with
data of one length for all sources, both ways to get hashes give for each source the hash of all its data. -/
theorem md5Multi_hashes (compress : Md5Words → Buffer → Md5Words) :
    (∀ level platform srcCount, 0 < srcCount → ∃ multi : MD5Multi,
      hashers level platform srcCount = some (multi.ctx, multi.lastCtxDataDup) ∧ multi.sources = srcCount) ∧
    ∀ (multi : MD5Multi) (memory blocks : ℕ → ℕ → Buffer) (calls : List ((ℕ → Buffer) × ℕ)),
      (∀ index input, (memory index input).length = MD5_BLOCKSIZE ∧ (blocks index input).length = MD5_BLOCKSIZE) →
      (∀ call ∈ calls, ∀ i < multi.sources, (call.1 i).length = call.2) →
        let hash := fun i => (MD5.ofWords compress).hash (calls.flatMap fun call => call.1 i)
        let ended := MD5Multi.end_ compress blocks
          (updates compress multi.lastCtxDataDup (multi.reset compress memory) calls)
        (∀ i < multi.sources, get1 ended i = some (hash i)) ∧
          get multi.lastCtxDataDup ended = (List.range multi.sources).flatMap hash := by
  refine ⟨fun level platform srcCount => hashers_cover level platform, fun multi memory blocks calls room given => ?_⟩
  have widths : (multi.reset compress memory).map Prod.fst = multi.ctx := reset_widths memory multi.ctx
  have spare : Spare multi.lastCtxDataDup multi.ctx := by
    intro last member
    rw [List.getLast?_eq_some_getLast multi.ctx_ne, Option.mem_some] at member
    exact member ▸ multi.dup_lt
  have start : Dealt (RegionHolds compress) multi.lastCtxDataDup (multi.reset compress memory) fun _ => [] :=
    reset_dealt memory (fun index input => (room index input).1) multi.ctx
  have updated := updates_dealt _ calls _ (by rwa [widths]) (by rw [widths]; exact given) start
  have ended := end_dealt blocks (fun index input => (room index input).2) _ _ updated
  have kept : (MD5Multi.end_ compress blocks
      (updates compress multi.lastCtxDataDup (multi.reset compress memory) calls)).map Prod.fst = multi.ctx := by
    rw [end_widths, updates_widths, widths]
  constructor
  · intro i below
    have got := get1_dealt _ _ (by rwa [kept]) ended (i := i) (by rw [kept]; exact below)
    exact got
  · have got := get_dealt _ _ (by rwa [kept]) ended
    rw [kept] at got
    exact got

/-- Three sources in four lanes. -/
def threeSources : MD5Multi := ⟨[⟨.sse, false⟩], by decide, 1, by decide⟩

/-- Data of the sources in two updates, of 70 and of 5 bytes. -/
def threeSourcesCalls : List ((ℕ → Buffer) × ℕ) :=
  [(fun i => List.replicate 70 (UInt8.ofNat i), 70), (fun i => List.replicate 5 (UInt8.ofNat (i + 3)), 5)]

/-- Blocks of zeros. -/
def zeroBlocks : ℕ → ℕ → Buffer := fun _ _ => List.replicate 64 0

/-- A word is the sum of the bytes so far. -/
def addBytes (words : Md5Words) (block : Buffer) : Md5Words := fun word =>
  words word + BitVec.ofNat 32 (block.map UInt8.toNat).sum

open MD5Multi in
theorem md5Multi_hashes_three :
    get1 (MD5Multi.end_ addBytes zeroBlocks
      (updates addBytes 1 (threeSources.reset addBytes zeroBlocks) threeSourcesCalls)) 2 =
        some ((MD5.ofWords addBytes).hash (List.replicate 70 2 ++ List.replicate 5 5)) :=
  ((md5Multi_hashes addBytes).2 threeSources zeroBlocks zeroBlocks threeSourcesCalls
    (fun _ _ => ⟨List.length_replicate, List.length_replicate⟩)
    (by simp [threeSourcesCalls])).1 2 (by decide)

end Par3
