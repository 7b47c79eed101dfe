import Par3.HasherInput

/-!
# The last block of MD5

Behind the data comes a one bit, zeros up to eight bytes before the end of a block, and the length
of the data in bits. `md5_final_block` puts zero bytes in between when a slice is padded, without
the blocks of zeros ever being in memory.
-/
namespace Par3

namespace MD5

variable (md5 : MD5)

/-- So many blocks of data are processed. -/
def blocks : ℕ → md5.State → Buffer → md5.State
  | 0, state, _ => state
  | count + 1, state, data => blocks count (md5.process_block state (data.take 64)) (data.drop 64)

/-- All whole blocks of data are processed. -/
def absorb (state : md5.State) (data : Buffer) : md5.State := md5.blocks (data.length / 64) state data

/-- What comes behind data of a length. -/
def padding (length : ℕ) : Buffer :=
  0x80 :: (List.replicate ((119 - length % 64) % 64) 0 ++ toLittleEndian 8 (length * 8 % 2 ^ 64))

/-- The hash of data. -/
def hash (data : Buffer) : Buffer := md5.bytes (md5.absorb md5.init (data ++ padding data.length))

variable {md5}

theorem absorb_short (state : md5.State) {data : Buffer} (short : data.length < 64) :
    md5.absorb state data = state := by
  rw [absorb, Nat.div_eq_of_lt short, blocks]

theorem absorb_nil (state : md5.State) : md5.absorb state [] = state := rfl

theorem absorb_take (state : md5.State) {data : Buffer} (whole : 64 ≤ data.length) :
    md5.absorb state data = md5.absorb (md5.process_block state (data.take 64)) (data.drop 64) := by
  have count : data.length / 64 = (data.length - 64) / 64 + 1 := by omega
  rw [absorb, absorb, count, blocks, List.length_drop]

theorem absorb_block (state : md5.State) {block : Buffer} (whole : block.length = 64)
    (data : Buffer) :
    md5.absorb state (block ++ data) = md5.absorb (md5.process_block state block) data := by
  rw [absorb_take state (by simp [whole]), List.take_left' whole, List.drop_left' whole]

theorem absorb_one (state : md5.State) {block : Buffer} (whole : block.length = 64) :
    md5.absorb state block = md5.process_block state block := by
  have one := absorb_block state whole []
  rwa [List.append_nil, absorb_nil] at one

/-- Whole blocks can be processed before the rest is known. -/
theorem absorb_append (state : md5.State) {data : Buffer} (whole : 64 ∣ data.length)
    (more : Buffer) : md5.absorb state (data ++ more) = md5.absorb (md5.absorb state data) more := by
  obtain ⟨count, length⟩ := whole
  induction count generalizing state data with
  | zero =>
    have none : data = [] := List.eq_nil_of_length_eq_zero length
    rw [none, List.nil_append, absorb_nil]
  | succ count ih =>
    have shorter : (data.drop 64).length = 64 * count := by
      rw [List.length_drop]
      omega
    rw [@absorb_take md5 state (data ++ more) (by rw [List.length_append]; omega),
      List.take_append_of_le_length (by omega), List.drop_append_of_le_length (by omega),
      ih _ shorter, ← absorb_take state (by omega)]

end MD5

variable {md5 : MD5}

/-- Bytes that are written behind the first ones. -/
theorem memcpy_append (first source rest : Buffer) (offset : ℕ) (length : offset = first.length) :
    memcpy (first ++ rest) offset source = first ++ source ++ rest.drop source.length := by
  rw [memcpy, List.take_left' length.symm, length, ← List.drop_drop, List.drop_left]

namespace FinalLoop

theorem run_succ (rounds : ℕ) (loop : FinalLoop md5) :
    run md5 (rounds + 1) loop =
      if loop.prepare.loopState = 4 then
        md5.process_block loop.prepare.state loop.prepare.block
      else
        run md5 rounds
          (advance md5
            { loop.prepare with
              state := md5.process_block loop.prepare.state loop.prepare.block }) := rfl

/-- The block that holds the length. -/
theorem run_length (rounds : ℕ) (loop : FinalLoop md5) (last : loop.loopState = 4)
    (first : Buffer) (before : loop.remaining = first.length) (room : first.length ≤ 56)
    {rest : Buffer} (block : loop.block = first ++ rest) (whole : loop.block.length = 64) :
    run md5 (rounds + 1) loop = md5.process_block loop.state
      (first ++ List.replicate (56 - first.length) 0 ++
        toLittleEndian 8 (loop.totalLength * 8 % 2 ^ 64)) := by
  have zeros : memcpy loop.block loop.remaining (List.replicate (64 - 8 - loop.remaining) 0) =
      first ++ List.replicate (56 - first.length) 0 ++ rest.drop (56 - first.length) := by
    rw [block, memcpy_append first _ rest _ before, before, List.length_replicate]
  have behind : (rest.drop (56 - first.length)).length = 8 := by
    rw [block, List.length_append] at whole
    rw [List.length_drop]
    omega
  have length : memcpy (memcpy loop.block loop.remaining
        (List.replicate (64 - 8 - loop.remaining) 0)) (64 - 8)
        (toLittleEndian 8 (loop.totalLength * 8 % 2 ^ 64)) =
      first ++ List.replicate (56 - first.length) 0 ++
        toLittleEndian 8 (loop.totalLength * 8 % 2 ^ 64) := by
    rw [zeros, memcpy_append _ _ _ _ (by simp; omega), List.drop_of_length_le (by simp [behind]),
      List.append_nil]
  have prepared : loop.prepare =
      { loop with
        totalLength := loop.totalLength * 8 % 2 ^ 64
        block := first ++ List.replicate (56 - first.length) 0 ++
          toLittleEndian 8 (loop.totalLength * 8 % 2 ^ 64) } := by
    rw [← length]
    simp [prepare, last]
  rw [run_succ, prepared]
  exact if_pos last

/-- Once the data has ended, the one bit and the length follow. -/
theorem run_end (rounds : ℕ) (loop : FinalLoop md5) (ending : loop.loopState = 2) (rest : Buffer)
    (length : rest.length = loop.totalLength % 64)
    (block : loop.block = rest ++ List.replicate (64 - rest.length) 0) :
    run md5 (rounds + 2) loop =
      md5.absorb loop.state (rest ++ MD5.padding loop.totalLength) := by
  have short : rest.length < 64 := by rw [length]; exact Nat.mod_lt _ (by omega)
  have marked : loop.block.set rest.length 0x80 =
      (rest ++ [0x80]) ++ List.replicate (63 - rest.length) 0 := by
    rw [block, List.set_append_right _ _ (by omega), Nat.sub_self,
      show 64 - rest.length = 63 - rest.length + 1 by omega, List.replicate_succ]
    simp
  by_cases room : rest.length + 1 ≤ 56
  · have last := run_length (rounds + 1)
      { loop with
        block := loop.block.set rest.length 0x80, remaining := rest.length + 1, loopState := 4 }
      rfl (rest ++ [0x80]) (by simp) (by simp; omega) marked
      (by simp [block]; omega)
    have prepared : loop.prepare = FinalLoop.prepare md5
        { loop with
          block := loop.block.set rest.length 0x80, remaining := rest.length + 1, loopState := 4 } := by
      simp [prepare, ending, ← length, room]
    have count : (119 - loop.totalLength % 64) % 64 = 56 - (rest.length + 1) := by omega
    have whole : (rest ++ MD5.padding loop.totalLength).length = 64 := by
      simp [MD5.padding, count]
      omega
    rw [run_succ, prepared, ← run_succ, last, MD5.absorb_one _ whole, MD5.padding, count]
    simp
  · have last := run_length rounds
      { loop with
        state := md5.process_block loop.state (loop.block.set rest.length 0x80)
        block := loop.block.set rest.length 0x80, remaining := 0, loopState := 4 }
      rfl [] rfl (by simp) rfl (by simp [block]; omega)
    have prepared : loop.prepare =
        { loop with block := loop.block.set rest.length 0x80, remaining := 0, loopState := 3 } := by
      simp [prepare, ending, ← length, room]
    have count : (119 - loop.totalLength % 64) % 64 = 63 - rest.length + 56 := by omega
    have whole : (rest ++ [0x80] ++ List.replicate (63 - rest.length) (0 : UInt8)).length = 64 := by
      simp
      omega
    have split : rest ++ MD5.padding loop.totalLength =
        (rest ++ [0x80] ++ List.replicate (63 - rest.length) 0) ++
          (List.replicate 56 0 ++ toLittleEndian 8 (loop.totalLength * 8 % 2 ^ 64)) := by
      rw [MD5.padding, count, List.replicate_add]
      simp
    rw [run_succ, prepared]
    simp only [advance, Nat.reduceEqDiff, if_false, if_true]
    rw [last, split, MD5.absorb_block _ whole, MD5.absorb_one _ (by simp), marked]
    simp

/-- Blocks of zeros. -/
theorem run_zeros (rounds : ℕ) (loop : FinalLoop md5) (zeros : loop.loopState = 1)
    (length : loop.zeroPad % 64 = loop.totalLength % 64)
    (block : loop.block = List.replicate 64 0) (enough : loop.zeroPad / 64 + 2 ≤ rounds) :
    run md5 rounds loop =
      md5.absorb loop.state
        (List.replicate loop.zeroPad 0 ++ MD5.padding loop.totalLength) := by
  induction rounds generalizing loop with
  | zero => omega
  | succ rounds ih =>
    by_cases short : loop.zeroPad < 64
    · obtain ⟨fewer, rfl⟩ : ∃ fewer, rounds = fewer + 1 := ⟨rounds - 1, by omega⟩
      have ending := run_end fewer { loop with loopState := 2 } rfl
        (List.replicate loop.zeroPad 0) (by simp; omega)
        (by rw [← List.replicate_add, List.length_replicate,
              show loop.zeroPad + (64 - loop.zeroPad) = 64 by omega]
            exact block)
      have prepared : loop.prepare = FinalLoop.prepare md5 { loop with loopState := 2 } := by
        simp [prepare, zeros, short]
      rw [run_succ, prepared, ← run_succ, ending]
    · have prepared : loop.prepare = loop := by
        simp [prepare, zeros, short]
      have split : List.replicate loop.zeroPad (0 : UInt8) =
          List.replicate 64 0 ++ List.replicate (loop.zeroPad - 64) 0 := by
        rw [← List.replicate_add]
        congr 1
        omega
      have next := ih
        { loop with
          state := md5.process_block loop.state loop.block, zeroPad := loop.zeroPad - 64 }
        zeros (by simp only; omega) block (by simp only; omega)
      rw [run_succ, prepared, if_neg (by omega)]
      simp only [advance, zeros, Nat.reduceEqDiff, if_false, if_true] at next ⊢
      rw [next, split, List.append_assoc, block]
      exact (MD5.absorb_block _ List.length_replicate _).symm

end FinalLoop

/-- The last blocks of data with zero bytes behind. -/
theorem md5_final_block_eq (state : md5.State) (data : Buffer) (totalLength zeroPad : ℕ)
    (inside : totalLength % 64 ≤ data.length) :
    md5_final_block md5 state data totalLength zeroPad =
      md5.absorb state
        (data.take (totalLength % 64) ++ List.replicate zeroPad 0 ++
          MD5.padding (totalLength + zeroPad)) := by
  have small : totalLength % 64 < 64 := Nat.mod_lt _ (by omega)
  have rest : (data.take (totalLength % 64)).length = totalLength % 64 := by simp [inside]
  rw [md5_final_block]
  by_cases short : totalLength % 64 + zeroPad < 64
  · have length : (data.take (totalLength % 64) ++ List.replicate zeroPad (0 : UInt8)).length =
        (totalLength + zeroPad) % 64 := by
      rw [List.length_append, rest, List.length_replicate]
      omega
    simp only [if_pos short]
    refine FinalLoop.run_end (zeroPad + 2) _ rfl _ length ?_
    rw [List.append_assoc, ← List.replicate_add, length]
    simp only
    congr 2
    omega
  · simp only [if_neg short]
    rw [FinalLoop.run_succ]
    simp only [FinalLoop.prepare, FinalLoop.advance]
    rw [if_neg (by simp)]
    simp only [Nat.reduceEqDiff, if_false, if_true, false_and]
    rw [FinalLoop.run_zeros _ _ rfl (by simp only; omega) rfl (by simp only; omega)]
    have split : List.replicate zeroPad (0 : UInt8) =
        List.replicate (64 - totalLength % 64) 0 ++
          List.replicate (zeroPad - (64 - totalLength % 64)) 0 := by
      rw [← List.replicate_add]
      congr 1
      omega
    have whole : (data.take (totalLength % 64) ++
        List.replicate (64 - totalLength % 64) (0 : UInt8)).length = 64 := by
      rw [List.length_append, rest, List.length_replicate]
      omega
    rw [split, ← List.append_assoc, List.append_assoc, MD5.absorb_block _ whole]

end Par3
