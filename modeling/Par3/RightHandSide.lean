import Par3.Repair

/-!
# The right-hand side

The right-hand side of the repair system starts as one block for each equation, copied
behind each other in one buffer, and has the known inputs subtracted from it. The three
ways to subtract, chosen by what is available, add the same combination.
-/

namespace Par3

/-! ## Copies between buffers -/

theorem copyInto_length (target source : Buffer) (offset : ℕ)
    (fits : offset + source.length ≤ target.length) :
    (copyInto target source offset).length = target.length := by
  simp only [copyInto, List.length_append, List.length_take, List.length_drop]
  omega

/-- A slice of a slice. -/
theorem slice_slice (buf : Buffer) {first last start stop : ℕ} (inside : first + stop ≤ last) :
    slice (slice buf first last) start stop = slice buf (first + start) (first + stop) := by
  rw [slice, slice, slice, List.drop_take, List.take_take, List.drop_drop, Nat.min_eq_left (by omega),
    show first + stop - (first + start) = stop - start by omega]

/-- The bytes before the copy stay. -/
theorem slice_copyInto_before (target source : Buffer) (offset start stop : ℕ)
    (fits : offset + source.length ≤ target.length) (before : stop ≤ offset) :
    slice (copyInto target source offset) start stop = slice target start stop := by
  have short : stop ≤ (target.take offset).length := by
    rw [List.length_take]
    omega
  have whole : slice target start stop =
      slice (target.take offset ++ target.drop offset) start stop := by
    rw [List.take_append_drop]
  rw [whole, copyInto, List.append_assoc, slice_append _ _ _ _ short, slice_append _ _ _ _ short]

/-- The copied bytes are those of the source. -/
theorem slice_copyInto (target source : Buffer) (offset : ℕ)
    (fits : offset + source.length ≤ target.length) :
    slice (copyInto target source offset) offset (offset + source.length) = source := by
  have reach : (target.take offset).length = offset := by
    rw [List.length_take]
    omega
  have all : source.take (target.length - offset) = source := List.take_of_length_le (by omega)
  have width : offset + source.length - offset = source.length := by omega
  rw [copyInto, all, List.append_assoc, slice, List.drop_append_of_le_length (by omega),
    List.drop_eq_nil_of_le (by omega), List.nil_append, width, List.take_left]

/-- Pieces of equal length, copied one behind the other, are found where they were put. The
induction is on the number of pieces. -/
theorem slice_copies (piece : ℕ → Buffer) (size : ℕ) (lengths : ∀ row, (piece row).length = size)
    (target : Buffer) (count : ℕ) (fits : count * size ≤ target.length) :
    let copied := (List.range count).foldl
      (fun buffer row => copyInto buffer (piece row) (row * size)) target
    copied.length = target.length ∧
      ∀ row < count, slice copied (row * size) ((row + 1) * size) = piece row := by
  induction count with
  | zero => exact ⟨rfl, fun row inside => absurd inside (Nat.not_lt_zero row)⟩
  | succ count ih =>
    have next : (count + 1) * size = count * size + size := Nat.succ_mul count size
    obtain ⟨length, earlier⟩ := ih (by omega)
    rw [List.range_succ, List.foldl_append, List.foldl_cons, List.foldl_nil]
    generalize (List.range count).foldl
      (fun buffer row => copyInto buffer (piece row) (row * size)) target = copied at length earlier
    have room : count * size + (piece count).length ≤ copied.length := by
      rw [lengths, length]
      omega
    refine ⟨(copyInto_length _ _ _ room).trans length, fun row inside => ?_⟩
    by_cases last : row = count
    · subst last
      have found := slice_copyInto copied (piece row) (row * size) room
      rwa [lengths, ← next] at found
    · have before : (row + 1) * size ≤ count * size := Nat.mul_le_mul_right size (by omega)
      rw [slice_copyInto_before _ _ _ _ _ room before]
      exact earlier row (by omega)

/-- The blocks of the right-hand side before the known inputs are subtracted. -/
theorem initialRhs_slice (backend : Backend) (recByIdx : BlockMap) (n firstRec blockSize : ℕ)
    (lengths : ∀ index, ∀ data ∈ recByIdx index, data.length = blockSize)
    (exact : ∀ eq < n, double ((firstRec : ℤ) + (eq : ℤ)) = (firstRec + eq : ℕ))
    (eq : ℕ) (inside : eq < n) :
    slice (initialRhs backend recByIdx n firstRec blockSize) (eq * blockSize)
        ((eq + 1) * blockSize) =
      (recByIdx (firstRec + eq)).getD (List.replicate blockSize 0) := by
  have pieces : ∀ row, ((recByIdx (firstRec + row)).getD (List.replicate blockSize 0)).length =
      blockSize := by
    intro row
    cases found : recByIdx (firstRec + row) with
    | none => simp
    | some data => exact lengths _ data found
  have asCopies : initialRhs backend recByIdx n firstRec blockSize =
      (List.range n).foldl (fun buffer row =>
        copyInto buffer ((recByIdx (firstRec + row)).getD (List.replicate blockSize 0))
          (row * blockSize)) (backend.allocBuffer (n * blockSize)) := by
    unfold initialRhs
    refine List.foldl_ext _ _ _ fun buffer row member => ?_
    rw [exact row (List.mem_range.mp member), Int.toNat_natCast]
    cases recByIdx (firstRec + row) <;> rfl
  rw [asCopies]
  exact (slice_copies _ blockSize pieces _ n (by simp [Backend.allocBuffer])).2 eq inside

/-! ## The known inputs -/

section KnownInputs

variable (backend : Backend) (rhs : ℕ → Words) (n : ℕ) (known : ℕ → Words) (knownCount : ℕ)
  (coeff : ℕ → ℕ → Gf64) (numWords : ℕ)

/-- Skipping products that are zero changes nothing. -/
theorem coupled_muladd_arr_apply (out : Words) (coeff_buf : ℕ → Gf64) (i : ℕ) (inside : i < numWords) :
    coupled_muladd_arr out known coeff_buf numWords knownCount i =
      out i + ∑ g ∈ Finset.range knownCount, known g i * coeff_buf g := by
  unfold coupled_muladd_arr
  induction knownCount with
  | zero => simp
  | succ knownCount ih =>
    rw [List.range_succ, List.foldl_append, List.foldl_cons, List.foldl_nil, ih,
      Finset.sum_range_succ]
    split
    · rw [add_assoc]
    · rename_i skipped
      have zero : known knownCount i * coeff_buf knownCount = 0 := by
        rw [mul_eq_zero]
        by_contra nonzero
        exact skipped ⟨inside, fun zero => nonzero (.inr zero), fun zero => nonzero (.inl zero)⟩
      rw [zero, add_zero]

theorem legacyRhs_apply (eq w : ℕ) (row : eq < n) (word : w < numWords) :
    legacyRhs rhs n known knownCount coeff numWords eq w =
      rhs eq w + ∑ ai ∈ Finset.range knownCount, known ai w * coeff eq ai := by
  unfold legacyRhs
  induction knownCount with
  | zero => simp
  | succ knownCount ih =>
    rw [List.range_succ, List.foldl_append, List.foldl_cons, List.foldl_nil, if_pos ⟨row, word⟩,
      ih, Finset.sum_range_succ, gf64_region_mul_arr, if_pos word, add_assoc]

/-- Every path adds the combination of the known inputs to each equation. -/
theorem subtractKnown_apply (eq w : ℕ) (row : eq < n) (word : w < numWords) :
    subtractKnown backend rhs n known knownCount coeff numWords eq w =
      rhs eq w + ∑ ai ∈ Finset.range knownCount, known ai w * coeff eq ai := by
  unfold subtractKnown
  split
  · rw [gf64_region_2d_muladd_arr_apply, if_pos ⟨word, row⟩]
    congr 1
    refine Finset.sum_congr rfl fun ai member => ?_
    have inside := Finset.mem_range.mp member
    have pos : 0 < knownCount := by omega
    have quotient : (eq * knownCount + ai) / knownCount = eq := by
      rw [Nat.mul_comm, Nat.mul_add_div pos, Nat.div_eq_of_lt inside, Nat.add_zero]
    have remainder : (eq * knownCount + ai) % knownCount = ai := by
      rw [Nat.mul_comm, Nat.mul_add_mod, Nat.mod_eq_of_lt inside]
    simp only [quotient, remainder]
  · split
    · dsimp only
      rw [if_neg (by omega)]
      split
      · rw [gf64_region_coupled_muladd_arr_apply, if_pos word]
      · exact coupled_muladd_arr_apply known knownCount numWords (rhs eq) (coeff eq) w word
    · exact legacyRhs_apply rhs n known knownCount coeff numWords eq w row word

end KnownInputs

/-! ## Any state of repair -/

/-- A loop over the positions of a list adds up its entries. -/
theorem sum_range_getD {M : Type*} [AddCommMonoid M] (list : List ℕ) (term : ℕ → M) :
    ∑ position ∈ Finset.range list.length, term (list.getD position 0) = (list.map term).sum := by
  rw [← Fin.sum_univ_fun_getElem, Finset.sum_range]
  refine Finset.sum_congr rfl fun position _ => ?_
  rw [List.getD_eq_getElem _ _ position.isLt]

namespace RepairState

variable (state : RepairState) (backend : Backend) (available : BlockMap)

/-- A word of a right-hand side: that of the recovery block, and the combination of the known
inputs. -/
theorem rhs_apply (n : ℕ) (known : List ℕ)
    (lengths : ∀ index, ∀ data ∈ state.recByIdx index, data.length = state.startPacket.block_size)
    (exact : ∀ eq < n, double ((state.matrix.first_recovery : ℤ) + (eq : ℤ)) =
      (state.matrix.first_recovery + eq : ℕ))
    {eq w : ℕ} (row : eq < n) (word : w < state.startPacket.block_size / 8) :
    state.rhs backend available n known eq w =
      wordAt ((state.recByIdx (state.matrix.first_recovery + eq)).getD
        (List.replicate state.startPacket.block_size 0)) w +
        (known.map fun index => wordAt ((available index).getD []) w *
          (cauchyCoeff (state.nativeM backend n) state.totalInputBlocks.toNat
            state.matrix.first_input state.matrix.first_recovery index eq).getD 0).sum := by
  have start := initialRhs_slice backend state.recByIdx n _ _ lengths exact eq row
  rw [rhs, subtractKnown_apply _ _ _ _ _ _ _ _ _ row word, start]
  exact congrArg _ (sum_range_getD known fun index => wordAt ((available index).getD []) w *
    (cauchyCoeff (state.nativeM backend n) state.totalInputBlocks.toNat state.matrix.first_input
      state.matrix.first_recovery index eq).getD 0)

/-- When the entries can be read and no known block is cut off, repair solves its system. -/
theorem reconstruct_eq (missing : List ℕ) (entry : ℕ → ℕ → Gf64)
    (entries : ∀ eq < missing.length, ∀ index ∈ missing,
      state.coefficientOf (state.nativeM backend missing.length) eq index = some (entry eq index))
    (pos : 0 < state.startPacket.block_size) (words : 8 ∣ state.startPacket.block_size)
    (whole : ∀ index ∈ state.knownInputIndices available missing,
      state.startPacket.block_size ≤ ((available index).getD []).length) :
    reconstruct backend state available missing =
      (SolveAndReconstruct (fun eq col : Fin missing.length => entry eq (missing.get col))
        (fun eq : Fin missing.length => state.rhs backend available missing.length
          (state.knownInputIndices available missing) eq)).elim (.error .singular) fun solution =>
        .ok (state.writeBlocks backend available missing solution) := by
  have readable : ¬ (((List.range missing.length).any fun eq => missing.any fun index =>
      (state.coefficientOf (state.nativeM backend missing.length) eq index).isNone) = true) := by
    intro fails
    obtain ⟨eq, row, fails⟩ := List.any_eq_true.mp fails
    obtain ⟨index, member, fails⟩ := List.any_eq_true.mp fails
    rw [entries eq (List.mem_range.mp row) index member] at fails
    cases fails
  have multiple := Nat.mod_eq_zero_of_dvd words
  have long : ¬ ((state.knownInputIndices available missing).any fun index =>
      decide (((available index).getD []).length < state.startPacket.block_size)) = true := by
    intro short
    obtain ⟨index, member, short⟩ := List.any_eq_true.mp short
    exact absurd (whole index member) (Nat.not_le.mpr (of_decide_eq_true short))
  have matrix : (fun (eq col : Fin missing.length) =>
      (state.coefficientOf (state.nativeM backend missing.length) eq (missing.get col)).getD 0) =
      fun (eq col : Fin missing.length) => entry eq (missing.get col) := by
    funext eq col
    rw [entries eq eq.isLt _ (List.get_mem _ col), Option.getD_some]
  rw [reconstruct]
  simp only [if_neg readable, if_neg (show ¬ (state.startPacket.block_size % 8 ≠ 0 ∨
    state.startPacket.block_size = 0) by omega), if_neg long, matrix]
  cases SolveAndReconstruct (fun (eq col : Fin missing.length) => entry eq (missing.get col))
      (fun eq : Fin missing.length => state.rhs backend available missing.length
        (state.knownInputIndices available missing) eq) with
  | none => rfl
  | some solution => rfl

end RepairState

end Par3
