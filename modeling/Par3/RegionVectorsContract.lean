import Par3.Gf64MulContract
import Par3.RegionVectors

/-!
# Vector kernels agree with the scalar ones

A block of a vector kernel changes each of its words as the scalar loop does, and so do the words that
are left. The kernels of all instruction sets are the same functions.
-/

namespace Par3

open RegionLoops Interleaving BinaryPolynomial BinaryField Word

/-! ## Words -/

theorem mulReference_eq (a b : Gf64) : mulReference a b = a * b := by
  apply Word.ext
  exact gf64_mul_reference_eq a.bits b.bits

theorem wordSum_eq (input : Gf64) (coeff : ℕ → Gf64) (n_coeff : ℕ) :
    wordSum input coeff n_coeff = ∑ c ∈ Finset.range n_coeff, input * coeff c := by
  simp only [wordSum, mulReference_eq]
  rw [foldl_add_range, zero_add]

/-- Halves of products may be added before they are reduced. -/
theorem reduce_xor (lo hi other upper : BitVec 64) :
    reduce (lo ^^^ other) (hi ^^^ upper) = reduce lo hi ^^^ reduce other upper := by
  apply @eq_of_classOf 64 GF64_POLY
  rw [BitVec.toNat_xor, classOf_xor, classOf_reduce, classOf_reduce, classOf_reduce, BitVec.toNat_xor,
    BitVec.toNat_xor, classOf_xor, classOf_xor]
  ring

/-- A reduction after a loop that adds halves is the sum of the reductions. -/
theorem foldl_reduce {halves : M512 × M512 → ℕ → M512 × M512} (lo hi : ℕ → M512)
    (step : ∀ acc c, halves acc c =
      (fun lane => acc.1 lane ^^^ lo c lane, fun lane => acc.2 lane ^^^ hi c lane)) (count lane : ℕ) :
    (⟨reduce (((List.range count).foldl halves (fun _ => 0, fun _ => 0)).1 lane)
      (((List.range count).foldl halves (fun _ => 0, fun _ => 0)).2 lane)⟩ : Gf64) =
      ∑ c ∈ Finset.range count, ⟨reduce (lo c lane) (hi c lane)⟩ := by
  induction count with
  | zero =>
    rw [Finset.sum_range_zero]
    apply Word.ext
    change reduce 0 0 = 0
    decide
  | succ count ih =>
    rw [List.range_succ, List.foldl_append, List.foldl_cons, List.foldl_nil, Finset.sum_range_succ,
      ← ih, step, reduce_xor]
    rfl

/-! ## Registers -/

section Changes

variable {change : ℕ → Gf64 → Gf64} {i count : ℕ} {lanes : ℕ → BitVec 64}

/-- A store whose lanes are what its words become. -/
theorem storeLanes_changes (values : ∀ lane < count, ∀ value, (⟨lanes lane⟩ : Gf64) = change (i + lane) value) :
    Changes (fun out : Words => out) change (storeLanes · i count lanes) i (i + count) := by
  intro out word
  dsimp only
  rw [storeLanes]
  split
  case isTrue inside =>
    rw [values (word - i) (by omega) (out word), Nat.add_sub_cancel' inside.1]
  case isFalse => rfl

/-- A load, an exclusive or and a store. -/
theorem xorLanes_changes
    (values : ∀ lane < count, ∀ value, value + (⟨lanes lane⟩ : Gf64) = change (i + lane) value) :
    Changes (fun out : Words => out) change (xorLanes · i count lanes) i (i + count) := by
  intro out word
  dsimp only
  rw [xorLanes, storeLanes]
  split
  case isTrue inside =>
    have value := values (word - i) (by omega) (out (i + (word - i)))
    rw [Nat.add_sub_cancel' inside.1] at value ⊢
    exact value
  case isFalse => rfl

/-- Stores one after the other, of lanes that were computed before. -/
theorem streams_changes {width : ℕ} {lanes : Words → ℕ → ℕ → BitVec 64} (values : ∀ prev, ∀ stream < count,
      ∀ lane < width, (⟨lanes prev stream lane⟩ : Gf64) =
        change (i + stream * width + lane) (prev (i + stream * width + lane))) :
    Changes (fun out : Words => out) change (fun prev => (List.range count).foldl (fun out stream =>
      storeLanes out (i + stream * width) width (lanes prev stream)) prev) i (i + count * width) := by
  intro prev word
  have stored := @Changes.blocks Words Gf64 (fun out => out) (fun word _ => change word (prev word)) width
    (fun out stream => storeLanes out (i + stream * width) width (lanes prev stream)) i count
    fun stream inside => storeLanes_changes fun lane low _ => values prev stream inside lane low
  exact stored prev word

theorem writePair_changes {step : Words → Words}
    (same : ∀ out, step out = Ssse3.writePair out i (change i (out i)) (change (i + 1) (out (i + 1)))) :
    Changes (fun out : Words => out) change step i (i + 2) := by
  intro out word
  dsimp only
  rw [same, Ssse3.writePair]
  by_cases second : word = i + 1
  · rw [second, Function.update_self, if_pos (by omega)]
  · rw [Function.update_of_ne second]
    by_cases first : word = i
    · rw [first, Nat.add_zero, Function.update_self, if_pos (by omega)]
    · rw [Nat.add_zero, Function.update_of_ne first, if_neg (by omega)]

theorem update_changes {step : Words → Words}
    (same : ∀ out, step out = Function.update out i (change i (out i))) :
    Changes (fun out : Words => out) change step i (i + 1) := by
  intro out word
  dsimp only
  rw [same]
  by_cases here : word = i
  · rw [here, Function.update_self, if_pos (by omega)]
  · rw [Function.update_of_ne here, if_neg (by omega)]

/-- A region that is changed as a whole. -/
theorem changed_region {step : Words → Words} {len : ℕ}
    (changes : Changes (fun out : Words => out) change step 0 len) (out : Words) :
    step out = fun word => if word < len then change word (out word) else out word := by
  funext word
  exact changes.whole out word

end Changes

/-! ## Products -/

theorem reducePacked_lane (lo hi : M128) (lane : ℕ) :
    reducePacked lo hi lane = reduce (lo lane) (hi lane) := by
  simp only [reducePacked, reduce, timesTail, R_hi, BitVec.xor_assoc, BitVec.or_assoc]

theorem shifted_half (v : BitVec 64) : (v &&& 0xFFFFFFFF) <<< 32 = v <<< 32 := by
  refine BitVec.eq_of_getLsbD_eq fun bit inside => ?_
  have mask (place : ℕ) (low : place < 32) : (0xFFFFFFFF : BitVec 64).getLsbD place = true := by
    interval_cases place <;> rfl
  rw [BitVec.getLsbD_shiftLeft, BitVec.getLsbD_shiftLeft, BitVec.getLsbD_and]
  by_cases low : bit < 32
  · rw [decide_eq_true low, Bool.not_true, Bool.and_false, Bool.false_and, Bool.false_and]
  · rw [mask _ (by omega), Bool.and_true]

theorem masked_high (v : BitVec 64) : (v >>> 32) &&& (0xFFFFFFFF : BitVec 64) = v >>> 32 := by
  refine BitVec.eq_of_toNat_eq ?_
  rw [low_half, Nat.mod_eq_of_lt (high_half v)]

theorem clmul_reduce_packed (a0 a1 b : BitVec 64) :
    gf64_clmul_reduce_64x64_packed a0 a1 b = (gf64_mul_reference a0 b, gf64_mul_reference a1 b) := by
  rw [gf64_clmul_reduce_64x64_packed, reducePacked_lane, reducePacked_lane]
  simp only [gf64_mul_reference, _mm_unpacklo_epi64, if_true, one_ne_zero, if_false,
    _mm_clmulepi64_lanes, _mm512_clmulepi64_epi128, _mm_set_epi32_low, Nat.zero_div, Nat.zero_mul,
    Nat.zero_mod, masked_high, shifted_half, _mm_cvtsi128_si64, BitVec.xor_assoc]

/-- A lane of a reduction of halves is a product. -/
theorem reduce_product (a b : BitVec 64) :
    (⟨reduce ((_mm_clmulepi64_si128 a b).setWidth 64) ((_mm_clmulepi64_si128 a b >>> 64).setWidth 64)⟩ :
      Gf64) = ⟨a⟩ * ⟨b⟩ := by
  apply Word.ext
  exact mulWords_eq a b

namespace Avx2

theorem splitPair_lane (input : Words) (i : ℕ) (coeffs : M256) {lane : ℕ} (low : lane < 2) :
    (⟨reduce ((splitPair input i coeffs).1 lane) ((splitPair input i coeffs).2 lane)⟩ : Gf64) =
      input (i + lane) * ⟨coeffs (2 * lane)⟩ := by
  interval_cases lane
  · exact reduce_product (input i).bits (coeffs 0)
  · exact reduce_product (input (i + 1)).bits (coeffs 2)

theorem productPair_lane (input : Words) (i : ℕ) (coeffs : M256) {lane : ℕ} (low : lane < 2) :
    (⟨productPair input i coeffs lane⟩ : Gf64) = input (i + lane) * ⟨coeffs (2 * lane)⟩ := by
  rw [← splitPair_lane input i coeffs low]
  exact congrArg Word.mk (gf64_reduce_mul_512_lane _ _ lane)

theorem sumPair_lane (input : Words) (coeff : ℕ → Gf64) (n_coeff i : ℕ) {lane : ℕ} (low : lane < 2) :
    (⟨sumPair input coeff n_coeff i lane⟩ : Gf64) =
      ∑ c ∈ Finset.range n_coeff, input (i + lane) * coeff c := by
  have sums := foldl_reduce (fun c => (splitPair input i (_mm256_set1_epi64x (coeff c).bits)).1)
    (fun c => (splitPair input i (_mm256_set1_epi64x (coeff c).bits)).2) (fun _ _ => rfl) n_coeff lane
  have each (c : ℕ) := splitPair_lane input i (_mm256_set1_epi64x (coeff c).bits) low
  rw [Finset.sum_congr rfl fun c _ => each c] at sums
  exact (congrArg Word.mk (gf64_reduce_mul_512_lane _ _ lane)).trans sums

end Avx2

namespace Avx512

theorem expandload_lane (input : Words) (i : ℕ) {lane : ℕ} (low : lane < 4) :
    _mm512_maskz_expandloadu_epi64 0x55 input i (2 * lane) = (input (i + lane)).bits := by
  interval_cases lane <;> rfl

theorem split_lane (in_vec coeffs : M512) {lane : ℕ} (low : lane < 4) :
    (⟨reduce ((gf64_split_prod_512 (_mm512_clmulepi64_epi128 in_vec coeffs)).1 lane)
      ((gf64_split_prod_512 (_mm512_clmulepi64_epi128 in_vec coeffs)).2 lane)⟩ : Gf64) =
      ⟨in_vec (2 * lane)⟩ * ⟨coeffs (2 * lane)⟩ := by
  interval_cases lane <;> exact reduce_product _ _

theorem productQuad_lane (in_vec coeffs : M512) {lane : ℕ} (low : lane < 4) :
    (⟨productQuad in_vec coeffs lane⟩ : Gf64) = ⟨in_vec (2 * lane)⟩ * ⟨coeffs (2 * lane)⟩ := by
  rw [← split_lane in_vec coeffs low]
  exact congrArg Word.mk (gf64_reduce_mul_512_lane _ _ lane)

theorem sumQuad_lane (in_vec : M512) (coeff : ℕ → Gf64) (n_coeff : ℕ) {lane : ℕ} (low : lane < 4) :
    (⟨sumQuad in_vec coeff n_coeff lane⟩ : Gf64) =
      ∑ c ∈ Finset.range n_coeff, ⟨in_vec (2 * lane)⟩ * coeff c := by
  have sums := foldl_reduce
    (fun c => (gf64_split_prod_512
      (_mm512_clmulepi64_epi128 in_vec (_mm512_set1_epi64 (coeff c).bits))).1)
    (fun c => (gf64_split_prod_512
      (_mm512_clmulepi64_epi128 in_vec (_mm512_set1_epi64 (coeff c).bits))).2)
    (fun _ _ => rfl) n_coeff lane
  have each (c : ℕ) := split_lane in_vec (_mm512_set1_epi64 (coeff c).bits) low
  rw [Finset.sum_congr rfl fun c _ => each c] at sums
  exact (congrArg Word.mk (gf64_reduce_mul_512_lane _ _ lane)).trans sums

end Avx512

/-! ## Products of a region -/

section Mul

variable (input : Words) (coeff : ℕ → Gf64) (len n_coeff : ℕ)

/-- What multiplications make of a word. -/
def mulChange : ℕ → Gf64 → Gf64 := fun word _ => input word * coeff (word % n_coeff)

theorem mulWord_changes (place : ℕ) :
    Changes (fun out : Words => out) (mulChange input coeff n_coeff)
      (fun out => Function.update out place (mulReference (input place) (coeff (place % n_coeff)))) place
      (place + 1) :=
  update_changes fun out => by rw [mulReference_eq, mulChange]

theorem mul_scalar_eq (out : Words) : gf64_region_mul_scalar_arr out input coeff len n_coeff =
    gf64_region_mul_arr out input coeff len n_coeff := by
  have words := @Changes.words Words Gf64 (fun out => out) (mulChange input coeff n_coeff)
    (fun out i => Function.update out i (mulReference (input i) (coeff (i % n_coeff)))) 0 len
    fun place _ _ => mulWord_changes input coeff n_coeff place
  rw [Nat.zero_add] at words
  rw [gf64_region_mul_scalar_arr, List.range_eq_range']
  exact changed_region words out

/-- Blocks that multiply, and then the words that are left. -/
theorem mul_region {width : ℕ} {block : Words → ℕ → Words}
    (eachBlock : ∀ start, Changes (fun out : Words => out) (mulChange input coeff n_coeff) (block · start)
      start (start + width)) (out : Words) :
    blocksThenWords width block (fun out i =>
        Function.update out i (mulReference (input i) (coeff (i % n_coeff)))) len out =
      gf64_region_mul_arr out input coeff len n_coeff :=
  changed_region (Changes.blocksThenWords (fun start _ => eachBlock start) fun place _ =>
    mulWord_changes input coeff n_coeff place) out

/-- The same with one coefficient. -/
theorem mul_region_one {width : ℕ} {block : Words → ℕ → Words}
    (eachBlock : ∀ start, Changes (fun out : Words => out) (fun word _ => input word * coeff 0)
      (block · start) start (start + width)) (out : Words) :
    blocksThenWords width block (fun out i => Function.update out i (mulReference (input i) (coeff 0)))
        len out = gf64_region_mul_arr out input coeff len 1 := by
  have same : (fun word (_ : Gf64) => input word * coeff 0) = mulChange input coeff 1 := by
    funext word value
    rw [mulChange, Nat.mod_one]
  rw [same] at eachBlock
  have region := mul_region input coeff len 1 eachBlock out
  simp only [Nat.mod_one] at region
  exact region

theorem mul_ssse3_eq (out : Words) : Ssse3.gf64_region_mul_ssse3_arr out input coeff len n_coeff =
    gf64_region_mul_arr out input coeff len n_coeff := by
  have products (a b : Gf64) : (⟨gf64_mul_reference a.bits b.bits⟩ : Gf64) = a * b := mulReference_eq a b
  rw [Ssse3.gf64_region_mul_ssse3_arr]
  split
  case isTrue one =>
    subst one
    refine mul_region_one input coeff len (fun start => writePair_changes fun out => ?_) out
    simp only [clmul_reduce_packed, products, Nat.add_zero]
  case isFalse =>
    refine mul_region input coeff len n_coeff (fun start => writePair_changes fun out => ?_) out
    simp only [clmul_reduce_packed, products, mulReference_eq, mulChange, Nat.add_zero]

theorem mul_avx2_eq (out : Words) : Avx2.gf64_region_mul_avx2_arr out input coeff len n_coeff =
    gf64_region_mul_arr out input coeff len n_coeff := by
  rw [Avx2.gf64_region_mul_avx2_arr]
  split
  case isTrue one =>
    subst one
    refine mul_region_one input coeff len (fun start => ?_) out
    have pair (i : ℕ) : Changes (fun out : Words => out) (fun word _ => input word * coeff 0)
        (storeLanes · i 2 (Avx2.productPair input i (_mm256_set1_epi64x (coeff 0).bits))) i (i + 2) :=
      storeLanes_changes fun lane low _ => Avx2.productPair_lane input i _ low
    exact Changes.append (Nat.le_add_right _ _) (Nat.le_add_right _ _) (pair start) (pair (start + 2))
  case isFalse =>
    refine mul_region input coeff len n_coeff (fun start => ?_) out
    have pair (i : ℕ) : Changes (fun out : Words => out) (mulChange input coeff n_coeff)
        (storeLanes · i 2 (Avx2.productPair input i (_mm256_setr_epi64x
          (coeff (i % n_coeff)).bits 0 (coeff ((i + 1) % n_coeff)).bits 0))) i (i + 2) := by
      refine storeLanes_changes fun lane low _ => ?_
      rw [Avx2.productPair_lane input i _ low, mulChange]
      interval_cases lane <;> rfl
    exact Changes.append (Nat.le_add_right _ _) (Nat.le_add_right _ _) (pair start) (pair (start + 2))

theorem mul_avx512_eq (out : Words) : Avx512.gf64_region_mul_avx512_arr out input coeff len n_coeff =
    gf64_region_mul_arr out input coeff len n_coeff := by
  rw [Avx512.gf64_region_mul_avx512_arr]
  split
  case isTrue one =>
    subst one
    refine mul_region_one input coeff len (fun start => ?_) out
    have quad (i : ℕ) : Changes (fun out : Words => out) (fun word _ => input word * coeff 0)
        (storeLanes · i 4 (Avx512.productQuad (_mm512_maskz_expandloadu_epi64 0x55 input i)
          (_mm512_set1_epi64 (coeff 0).bits))) i (i + 4) := by
      refine storeLanes_changes fun lane low _ => ?_
      rw [Avx512.productQuad_lane _ _ low, Avx512.expandload_lane input i low]
      rfl
    exact Changes.append (Nat.le_add_right _ _) (Nat.le_add_right _ _) (quad start) (quad (start + 4))
  case isFalse =>
    refine mul_region input coeff len n_coeff (fun start => storeLanes_changes fun lane low _ => ?_) out
    rw [Avx512.productQuad_lane _ _ low, mulChange]
    interval_cases lane <;> rfl

end Mul

/-! ## Sums of a region -/

section Muladd

variable (input : Words) (coeff : ℕ → Gf64) (len n_coeff : ℕ)

/-- What multiply-adds make of a word. -/
def addChange : ℕ → Gf64 → Gf64 := fun word value =>
  value + ∑ c ∈ Finset.range n_coeff, input word * coeff c

theorem muladd_arr_eq (out : Words) : gf64_region_muladd_arr out input coeff len n_coeff =
    fun word => if word < len then addChange input coeff n_coeff word (out word) else out word := by
  funext word
  rw [gf64_region_muladd_arr, foldl_add_range, zero_add, addChange]

theorem addWord_changes (place : ℕ) :
    Changes (fun out : Words => out) (addChange input coeff n_coeff)
      (fun out => Function.update out place (out place + wordSum (input place) coeff n_coeff)) place
      (place + 1) :=
  update_changes fun out => by rw [wordSum_eq, addChange]

theorem muladd_scalar_eq (out : Words) : gf64_region_muladd_scalar_arr out input coeff len n_coeff =
    gf64_region_muladd_arr out input coeff len n_coeff := by
  have words := @Changes.words Words Gf64 (fun out => out) (addChange input coeff n_coeff)
    (fun out i => Function.update out i (out i + wordSum (input i) coeff n_coeff)) 0 len
    fun place _ _ => addWord_changes input coeff n_coeff place
  rw [Nat.zero_add] at words
  rw [gf64_region_muladd_scalar_arr, List.range_eq_range', muladd_arr_eq]
  exact changed_region words out

/-- Blocks that add, and then the words that are left. -/
theorem muladd_region {width : ℕ} {block : Words → ℕ → Words}
    (eachBlock : ∀ start, Changes (fun out : Words => out) (addChange input coeff n_coeff) (block · start)
      start (start + width)) (out : Words) :
    blocksThenWords width block (fun out i =>
        Function.update out i (out i + wordSum (input i) coeff n_coeff)) len out =
      gf64_region_muladd_arr out input coeff len n_coeff := by
  rw [muladd_arr_eq]
  exact changed_region (Changes.blocksThenWords (fun start _ => eachBlock start) fun place _ =>
    addWord_changes input coeff n_coeff place) out

/-- The same with one coefficient. -/
theorem muladd_region_one {width : ℕ} {block : Words → ℕ → Words}
    (eachBlock : ∀ start, Changes (fun out : Words => out) (fun word value => value + input word * coeff 0)
      (block · start) start (start + width)) (out : Words) :
    blocksThenWords width block (fun out i =>
        Function.update out i (out i + mulReference (input i) (coeff 0))) len out =
      gf64_region_muladd_arr out input coeff len 1 := by
  have single (a : Gf64) : wordSum a coeff 1 = mulReference a (coeff 0) := by
    rw [wordSum_eq, Finset.sum_range_one, mulReference_eq]
  have same : (fun word value => value + input word * coeff 0) = addChange input coeff 1 := by
    funext word value
    rw [addChange, Finset.sum_range_one]
  rw [same] at eachBlock
  have region := muladd_region input coeff len 1 eachBlock out
  simp only [single] at region
  exact region

theorem Ssse3.addBlock_changes (coeff : Gf64) (i : ℕ) :
    Changes (fun out : Words => out) (fun word value => value + input word * coeff)
      (fun out => Ssse3.addBlock out input coeff i) i (i + 2) := by
  have products (a b : Gf64) : (⟨gf64_mul_reference a.bits b.bits⟩ : Gf64) = a * b := mulReference_eq a b
  refine writePair_changes fun out => ?_
  simp only [Ssse3.addBlock, clmul_reduce_packed, products, Nat.add_zero]

theorem Avx2.addBlock_changes (coeff : Gf64) (i : ℕ) :
    Changes (fun out : Words => out) (fun word value => value + input word * coeff)
      (fun out => Avx2.addBlock out input coeff i) i (i + 4) := by
  have pair (i : ℕ) : Changes (fun out : Words => out) (fun word value => value + input word * coeff)
      (xorLanes · i 2 (productPair input i (_mm256_set1_epi64x coeff.bits))) i (i + 2) := by
    refine xorLanes_changes fun lane low value => ?_
    rw [productPair_lane input i _ low]
    rfl
  exact Changes.append (Nat.le_add_right _ _) (Nat.le_add_right _ _) (pair i) (pair (i + 2))

theorem Avx512.addBlock_changes (coeff : Gf64) (i : ℕ) :
    Changes (fun out : Words => out) (fun word value => value + input word * coeff)
      (fun out => Avx512.addBlock out input coeff i) i (i + 4) := by
  refine xorLanes_changes fun lane low value => ?_
  rw [productQuad_lane _ _ low, expandload_lane input i low]
  rfl

theorem muladd_ssse3_eq (out : Words) : Ssse3.gf64_region_muladd_ssse3_arr out input coeff len n_coeff =
    gf64_region_muladd_arr out input coeff len n_coeff := by
  rw [Ssse3.gf64_region_muladd_ssse3_arr]
  split
  case isTrue one =>
    subst one
    exact muladd_region_one input coeff len (fun start => Ssse3.addBlock_changes input (coeff 0) start) out
  case isFalse =>
    have sums (start count : ℕ) : (List.range count).foldl (fun (acc : Gf64 × Gf64) c =>
        (acc.1 + mulReference (input start) (coeff c),
          acc.2 + mulReference (input (start + 1)) (coeff c))) (0, 0) =
          (∑ c ∈ Finset.range count, input start * coeff c,
            ∑ c ∈ Finset.range count, input (start + 1) * coeff c) := by
      induction count with
      | zero => rfl
      | succ count ih =>
        rw [List.range_succ, List.foldl_append, List.foldl_cons, List.foldl_nil, ih,
          Finset.sum_range_succ, Finset.sum_range_succ, mulReference_eq, mulReference_eq]
    refine muladd_region input coeff len n_coeff (fun start => writePair_changes fun out => ?_) out
    have packed := sums start n_coeff
    simp only [mulReference] at packed
    simp only [clmul_reduce_packed, packed, addChange, Nat.add_zero]

theorem muladd_avx2_eq (out : Words) : Avx2.gf64_region_muladd_avx2_arr out input coeff len n_coeff =
    gf64_region_muladd_arr out input coeff len n_coeff := by
  rw [Avx2.gf64_region_muladd_avx2_arr]
  split
  case isTrue one =>
    subst one
    refine muladd_region_one input coeff len (fun start => ?_) out
    refine streams_changes fun prev stream _ lane low => ?_
    have product := Avx2.productPair_lane input (start + stream * 2)
      (_mm256_set1_epi64x (coeff 0).bits) low
    exact congrArg (prev (start + stream * 2 + lane) + ·) product
  case isFalse =>
    refine muladd_region input coeff len n_coeff (fun start => ?_) out
    have pair (i : ℕ) : Changes (fun out : Words => out) (addChange input coeff n_coeff)
        (xorLanes · i 2 (Avx2.sumPair input coeff n_coeff i)) i (i + 2) := by
      refine xorLanes_changes fun lane low value => ?_
      rw [Avx2.sumPair_lane input coeff n_coeff i low, addChange]
    exact Changes.append (Nat.le_add_right _ _) (Nat.le_add_right _ _) (pair start) (pair (start + 2))

theorem muladd_avx512_eq (out : Words) :
    Avx512.gf64_region_muladd_avx512_arr out input coeff len n_coeff =
      gf64_region_muladd_arr out input coeff len n_coeff := by
  rw [Avx512.gf64_region_muladd_avx512_arr]
  split
  case isTrue one =>
    subst one
    refine muladd_region_one input coeff len (fun start => ?_) out
    refine streams_changes fun prev stream _ lane low => ?_
    have product := Avx512.productQuad_lane
      (_mm512_maskz_expandloadu_epi64 0x55 input (start + stream * 4))
      (_mm512_set1_epi64 (coeff 0).bits) low
    rw [Avx512.expandload_lane input _ low] at product
    exact congrArg (prev (start + stream * 4 + lane) + ·) product
  case isFalse =>
    refine muladd_region input coeff len n_coeff (fun start => ?_) out
    refine xorLanes_changes fun lane low value => ?_
    rw [Avx512.sumQuad_lane _ _ _ low, addChange, Avx512.expandload_lane input start low]

end Muladd

/-! ## Many outputs -/

section Fused

variable (input : Words) (starts : ℕ → Gf64) (len : ℕ)

theorem fusedWord_changes {ks : List ℕ} (distinct : ks.Nodup) (k i : ℕ) :
    Changes (fun outs : ℕ → Words => outs k) (fun word value =>
        if k ∈ ks then value + input word * starts k else value)
      (fusedWord ks input starts · i) i (i + 1) := by
  intro outs word
  have kept := foldl_update_nodup (fun k (out : Words) =>
    Function.update out i (out i + mulReference (input i) (starts k))) distinct outs k
  change fusedWord ks input starts outs i k = _ at kept
  dsimp only
  rw [kept]
  split
  case isTrue =>
    rw [mulReference_eq]
    exact @update_changes (fun word value => value + input word * starts k) i _ (fun _ => rfl) (outs k)
      word
  case isFalse => rw [ite_self]

variable {width : ℕ} {addBlock : Words → Words → Gf64 → ℕ → Words}
  (adds : ∀ input coeff i, Changes (fun out : Words => out) (fun word value => value + input word * coeff)
    (fun out => addBlock out input coeff i) i (i + width))

include adds

theorem fusedRegion_eq {ks : List ℕ} (distinct : ks.Nodup) (outs : ℕ → Words) (k word : ℕ) :
    fusedRegion width addBlock ks input starts len outs k word =
      if word < len ∧ k ∈ ks then outs k word + input word * starts k else outs k word := by
  have region : Changes (fun outs : ℕ → Words => outs k) (fun word value =>
      if k ∈ ks then value + input word * starts k else value)
      (fusedRegion width addBlock ks input starts len) 0 len := by
    refine Changes.blocksThenWords (fun i _ => ?_) fun i _ => fusedWord_changes input starts distinct k i
    intro outs word
    have kept := foldl_update_nodup (fun k out => addBlock out input (starts k) i) distinct outs k
    dsimp only
    rw [kept]
    split
    case isTrue => exact adds input (starts k) i (outs k) word
    case isFalse => rw [ite_self]
  refine (region.whole outs word).trans ?_
  by_cases inside : word < len
  · rw [if_pos inside]
    exact if_congr (and_iff_right inside).symm rfl rfl
  · rw [if_neg inside, if_neg fun found => inside found.1]

/-- All outputs at once. -/
theorem fusedRegion_range (outs : ℕ → Words) (K : ℕ) :
    fusedRegion width addBlock (List.range K) input starts len outs =
      gf64_region_fused_output_muladd_arr outs input starts len K := by
  funext k word
  rw [fusedRegion_eq input starts len adds List.nodup_range, gf64_region_fused_output_muladd_arr]
  exact if_congr (and_congr_right' List.mem_range) rfl rfl

omit adds in
theorem active_k_eq (k_base chunk_K : ℕ) : active_k starts k_base chunk_K =
    (List.range' k_base chunk_K).filter fun k => starts k ≠ 0 := by
  rw [active_k]
  induction chunk_K with
  | zero => rfl
  | succ chunk_K ih =>
    rw [List.range_succ, List.foldl_append, List.foldl_cons, List.foldl_nil, ih,
      List.range'_concat, List.filter_append, Nat.one_mul, List.filter_singleton]
    by_cases zero : starts (k_base + chunk_K) = 0
    · rw [if_neg (not_not.mpr zero), decide_eq_false (not_not.mpr zero), cond_false, List.append_nil]
    · rw [if_pos zero, decide_eq_true zero, cond_true]

/-- Chunks whose zero coefficients are left out. -/
theorem fusedChunks_eq (outs : ℕ → Words) (K : ℕ) :
    fusedChunks width addBlock outs input starts len K =
      gf64_region_fused_output_muladd_arr outs input starts len K := by
  rw [fusedChunks]
  split
  case isTrue none =>
    funext k word
    rw [gf64_region_fused_output_muladd_arr, if_neg (by omega)]
  case isFalse some =>
    have chunk (base : ℕ) (inside : base < K) : Changes (fun outs : ℕ → Words => outs)
        (fun k out word => if word < len then out word + input word * starts k else out word)
        (fun outs =>
          let chunk_K := K - base
          let chunk_K := if chunk_K > 256 then 256 else chunk_K
          let active := active_k starts base chunk_K
          if active.length = 0 then outs
          else fusedRegion width addBlock active input starts len outs) base (min (base + 256) K) := by
      intro outs k
      have size : base + (if K - base > 256 then 256 else K - base) = min (base + 256) K := by
        split <;> omega
      have distinct : (active_k starts base (if K - base > 256 then 256 else K - base)).Nodup := by
        rw [active_k_eq]
        exact List.Nodup.filter _ List.nodup_range'
      have member : k ∈ active_k starts base (if K - base > 256 then 256 else K - base) ↔
          (base ≤ k ∧ k < min (base + 256) K) ∧ starts k ≠ 0 := by
        rw [active_k_eq, List.mem_filter, List.mem_range'_1, size, decide_eq_true_iff]
      -- an output whose coefficient is zero would not change
      have changed (word : ℕ) : fusedRegion width addBlock
          (active_k starts base (if K - base > 256 then 256 else K - base)) input starts len outs k word =
          if base ≤ k ∧ k < min (base + 256) K then
            (if word < len then outs k word + input word * starts k else outs k word)
          else outs k word := by
        rw [fusedRegion_eq input starts len adds distinct]
        by_cases zero : starts k = 0
        · rw [if_neg fun found => (member.mp found.2).2 zero, zero, mul_zero, add_zero, ite_self, ite_self]
        · by_cases inside : base ≤ k ∧ k < min (base + 256) K
          · rw [if_pos inside]
            exact if_congr (and_iff_left (member.mpr ⟨inside, zero⟩)) rfl rfl
          · rw [if_neg inside, if_neg fun found => inside (member.mp found.2).1]
      dsimp only
      funext word
      by_cases empty : (active_k starts base (if K - base > 256 then 256 else K - base)).length = 0
      · have none : active_k starts base (if K - base > 256 then 256 else K - base) = [] :=
          List.length_eq_zero_iff.mp empty
        have unchanged := changed word
        rw [fusedRegion_eq input starts len adds distinct, none,
          if_neg fun found => List.not_mem_nil found.2] at unchanged
        rw [if_pos empty, unchanged]
        split <;> rfl
      · rw [if_neg empty, changed word]
        split <;> rfl
    have chunks := Changes.strided (by decide : 0 < 256) (Nat.zero_le K) chunk
    funext k word
    refine (congrFun (chunks.whole outs k) word).trans ?_
    rw [gf64_region_fused_output_muladd_arr]
    by_cases inside : k < K
    · rw [if_pos inside]
      exact if_congr (and_iff_left inside).symm rfl rfl
    · rw [if_neg inside, if_neg fun found => inside found.2]

theorem twoDimensional_eq (outs : ℕ → Words) (K : ℕ) (in_blocks : ℕ → Words) (G : ℕ)
    (coeff_block_2d : ℕ → Gf64) (K_stride : ℕ) :
    twoDimensional width addBlock outs K in_blocks G coeff_block_2d K_stride len =
      gf64_region_2d_muladd_arr outs K in_blocks G coeff_block_2d K_stride len := by
  rw [twoDimensional, gf64_region_2d_muladd_arr]
  congr 1
  funext outs g
  exact fusedRegion_range (in_blocks g) _ len adds outs K

end Fused

/-- The loop of words is a loop of blocks without blocks. -/
theorem fusedWords_eq (input : Words) (starts : ℕ → Gf64) (len K : ℕ) (outs : ℕ → Words) :
    (List.range len).foldl (fusedWord (List.range K) input starts) outs =
      gf64_region_fused_output_muladd_arr outs input starts len K := by
  funext k word
  have words := @Changes.words (ℕ → Words) Gf64 (fun outs => outs k) _
    (fusedWord (List.range K) input starts) 0 len fun i _ _ =>
      fusedWord_changes input starts List.nodup_range k i
  rw [Nat.zero_add, ← List.range_eq_range'] at words
  refine (words.whole outs word).trans ?_
  rw [gf64_region_fused_output_muladd_arr]
  by_cases inside : word < len
  · rw [if_pos inside]
    exact if_congr (List.mem_range.trans (and_iff_right inside).symm) rfl rfl
  · rw [if_neg inside, if_neg fun found => inside found.1]

/-- One call after the other adds the products of all inputs. -/
theorem coupledMuladd_eq : coupledMuladd gf64_region_muladd_arr = gf64_region_coupled_muladd_arr := by
  funext out in_blocks coeff_blocks len G
  rw [coupledMuladd, gf64_region_coupled_muladd_arr]
  refine List.foldl_ext _ _ _ fun out g _ => ?_
  funext word
  rw [gf64_region_muladd_arr_one, gf64_region_muladd_arr_one, Nat.add_zero]

/-! ## Sets of kernels -/

/-- The kernels as the scalar loops describe them. -/
def describedKernels : RegionKernelSet where
  mul := gf64_region_mul_arr
  muladd := gf64_region_muladd_arr
  coupled_muladd := gf64_region_coupled_muladd_arr
  fused_output_muladd := gf64_region_fused_output_muladd_arr
  two_dimensional_muladd := gf64_region_2d_muladd_arr

theorem scalarKernels_eq : scalarKernels = describedKernels := by
  have muladd : gf64_region_muladd_scalar_arr = gf64_region_muladd_arr := by
    funext out input coeff len n_coeff
    exact muladd_scalar_eq input coeff len n_coeff out
  rw [scalarKernels, describedKernels, gf64_region_coupled_muladd_scalar_arr, muladd, coupledMuladd_eq]
  congr 1
  · funext out input coeff len n_coeff
    exact mul_scalar_eq input coeff len n_coeff out
  · funext outs input starts len K
    exact fusedWords_eq input starts len K outs
  · funext outs K in_blocks G coeff_block_2d K_stride len
    rw [gf64_region_2d_muladd_scalar_arr, gf64_region_2d_muladd_arr]
    congr 1
    funext outs g
    exact fusedWords_eq (in_blocks g) _ len K outs

theorem ssse3Kernels_eq : ssse3Kernels = describedKernels := by
  have muladd : Ssse3.gf64_region_muladd_ssse3_arr = gf64_region_muladd_arr := by
    funext out input coeff len n_coeff
    exact muladd_ssse3_eq input coeff len n_coeff out
  rw [ssse3Kernels, describedKernels, Ssse3.gf64_region_coupled_muladd_ssse3_arr, muladd,
    coupledMuladd_eq]
  congr 1
  · funext out input coeff len n_coeff
    exact mul_ssse3_eq input coeff len n_coeff out
  · funext outs input starts len K
    exact fusedRegion_range input starts len Ssse3.addBlock_changes outs K
  · funext outs K in_blocks G coeff_block_2d K_stride len
    exact twoDimensional_eq len Ssse3.addBlock_changes outs K in_blocks G coeff_block_2d K_stride

theorem avx2Kernels_eq : avx2Kernels = describedKernels := by
  have muladd : Avx2.gf64_region_muladd_avx2_arr = gf64_region_muladd_arr := by
    funext out input coeff len n_coeff
    exact muladd_avx2_eq input coeff len n_coeff out
  rw [avx2Kernels, describedKernels, Avx2.gf64_region_coupled_muladd_avx2_arr, muladd, coupledMuladd_eq]
  congr 1
  · funext out input coeff len n_coeff
    exact mul_avx2_eq input coeff len n_coeff out
  · funext outs input starts len K
    exact fusedChunks_eq input starts len Avx2.addBlock_changes outs K
  · funext outs K in_blocks G coeff_block_2d K_stride len
    exact twoDimensional_eq len Avx2.addBlock_changes outs K in_blocks G coeff_block_2d K_stride

theorem avx512Kernels_eq : avx512Kernels = describedKernels := by
  have muladd : Avx512.gf64_region_muladd_avx512_arr = gf64_region_muladd_arr := by
    funext out input coeff len n_coeff
    exact muladd_avx512_eq input coeff len n_coeff out
  rw [avx512Kernels, describedKernels, Avx512.gf64_region_coupled_muladd_avx512_arr, muladd,
    coupledMuladd_eq]
  congr 1
  · funext out input coeff len n_coeff
    exact mul_avx512_eq input coeff len n_coeff out
  · funext outs input starts len K
    exact fusedChunks_eq input starts len Avx512.addBlock_changes outs K
  · funext outs K in_blocks G coeff_block_2d K_stride len
    exact twoDimensional_eq len Avx512.addBlock_changes outs K in_blocks G coeff_block_2d K_stride

/-- Every set of kernels leaves what the scalar loops leave: the products or their sums in the words of
the region, and everything else as it was. -/
theorem region_kernels_agree : (∀ kernels ∈ [ssse3Kernels, avx2Kernels, avx512Kernels],
      kernels = scalarKernels) ∧
    (∀ (out input : Words) (coeff : ℕ → Gf64) (len n_coeff word : ℕ),
      scalarKernels.mul out input coeff len n_coeff word =
        if word < len then input word * coeff (word % n_coeff) else out word) ∧
    (∀ (out input : Words) (coeff : ℕ → Gf64) (len n_coeff word : ℕ),
      scalarKernels.muladd out input coeff len n_coeff word =
        if word < len then out word + ∑ c ∈ Finset.range n_coeff, input word * coeff c else out word) ∧
    (∀ (out : Words) (in_blocks : ℕ → Words) (coeff_blocks : ℕ → Gf64) (len G word : ℕ),
      scalarKernels.coupled_muladd out in_blocks coeff_blocks len G word =
        if word < len then out word + ∑ g ∈ Finset.range G, in_blocks g word * coeff_blocks g
        else out word) ∧
    (∀ (outs : ℕ → Words) (input : Words) (starts : ℕ → Gf64) (len K k word : ℕ),
      scalarKernels.fused_output_muladd outs input starts len K k word =
        if word < len ∧ k < K then outs k word + input word * starts k else outs k word) ∧
    ∀ (outs : ℕ → Words) (K : ℕ) (in_blocks : ℕ → Words) (G : ℕ) (coeff_block_2d : ℕ → Gf64)
      (K_stride len k word : ℕ),
      scalarKernels.two_dimensional_muladd outs K in_blocks G coeff_block_2d K_stride len k word =
        if word < len ∧ k < K then
          outs k word + ∑ g ∈ Finset.range G, in_blocks g word * coeff_block_2d (k * K_stride + g)
        else outs k word := by
  rw [scalarKernels_eq]
  refine ⟨?_, fun _ _ _ _ _ _ => rfl, ?_, ?_, fun _ _ _ _ _ _ _ => rfl, ?_⟩
  · intro kernels member
    rw [List.mem_cons, List.mem_cons, List.mem_singleton] at member
    obtain rfl | rfl | rfl := member
    · exact ssse3Kernels_eq
    · exact avx2Kernels_eq
    · exact avx512Kernels_eq
  · intro out input coeff len n_coeff word
    exact congrFun (muladd_arr_eq input coeff len n_coeff out) word
  · intro out in_blocks coeff_blocks len G word
    exact gf64_region_coupled_muladd_arr_apply out in_blocks coeff_blocks len G word
  · intro outs K in_blocks G coeff_block_2d K_stride len k word
    exact gf64_region_2d_muladd_arr_apply outs in_blocks coeff_block_2d len G K K_stride k word

end Par3
